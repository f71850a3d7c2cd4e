import Mathlib.Computability.RegularExpressions
import Mathlib.Data.Rat.Floor
import Mathlib.Tactic.Linarith
import Mathlib.Tactic.Push
import Nifra.Text.JSString

/-! # Date-times

The patterns and the arithmetic that read the date-times of RFC 3339, and what they stand for: a day
of the calendar, a clock and an offset.
-/

namespace Nifra.Schema

open RegularExpression

def oneOf (units : List ℕ) : RegularExpression ℕ := units.foldr (fun c r => char c + r) 0

def concat (rs : List (RegularExpression ℕ)) : RegularExpression ℕ := rs.foldr (· * ·) 1

def opt (r : RegularExpression ℕ) : RegularExpression ℕ := 1 + r

def digits : List ℕ := [48, 49, 50, 51, 52, 53, 54, 55, 56, 57]

/-- `\d{4}` -/
def yearPattern : RegularExpression ℕ :=
  concat [oneOf digits, oneOf digits, oneOf digits, oneOf digits]

/-- `(?:0[1-9]|1[0-2])` -/
def monthPattern : RegularExpression ℕ :=
  oneOf [48] * oneOf (digits.drop 1) + oneOf [49] * oneOf (digits.take 3)

/-- `(?:0[1-9]|[12]\d|3[01])` -/
def dayPattern : RegularExpression ℕ :=
  oneOf [48] * oneOf (digits.drop 1) + (oneOf [49, 50] * oneOf digits +
    oneOf [51] * oneOf (digits.take 2))

/-- `(?:[01]\d|2[0-3])` -/
def hourPattern : RegularExpression ℕ :=
  oneOf [48, 49] * oneOf digits + oneOf [50] * oneOf (digits.take 4)

/-- `[0-5]\d` -/
def minutePattern : RegularExpression ℕ := oneOf (digits.take 6) * oneOf digits

/-- `(?:[0-5]\d|60)` -/
def secondPattern : RegularExpression ℕ := minutePattern + oneOf [54] * oneOf [48]

/-- `(?:\.\d+)?` -/
def fractionPattern : RegularExpression ℕ :=
  opt (concat [oneOf [46], oneOf digits, star (oneOf digits)])

/-- `(?:[Zz]|[+-](?:[01]\d|2[0-3]):[0-5]\d)` -/
def zonePattern : RegularExpression ℕ :=
  oneOf [90, 122] + concat [oneOf [43, 45], hourPattern, oneOf [58], minutePattern]

/-- `DATE_TIME` -/
def dateTimePattern : RegularExpression ℕ :=
  concat [yearPattern, oneOf [45], monthPattern, oneOf [45], dayPattern, oneOf [84, 116],
    hourPattern, oneOf [58], minutePattern, oneOf [58], secondPattern, fractionPattern, zonePattern]

/-- `value.charCodeAt(at)` within the text. -/
def charCodeAt (value : JSString) (at' : ℕ) : ℤ := (value.getD at' 0 : ℕ)

def twoDigits (value : JSString) (at' : ℕ) : ℤ :=
  (charCodeAt value at' - 48) * 10 + charCodeAt value (at' + 1) - 48

def yearOf (value : JSString) : ℤ := twoDigits value 0 * 100 + twoDigits value 2

/-- Whether the matched `YYYY-MM-DD` at the start of `value` names a day its month has. -/
def dayExists (value : JSString) : Bool :=
  let day := twoDigits value 8
  if day ≤ 28 then true
  else
    let month := twoDigits value 5
    if month ≠ 2 then
      day ≤ if month = 4 ∨ month = 6 ∨ month = 9 ∨ month = 11 then 30 else 31
    else
      let year := yearOf value
      day = 29 ∧ year.tmod 4 = 0 ∧ (year.tmod 100 ≠ 0 ∨ year.tmod 400 = 0)

def offsetMinutes (value : JSString) : ℤ :=
  let last := value.length
  let zone := charCodeAt value (last - 1)
  if zone = 90 ∨ zone = 122 then 0
  else
    let minutes := twoDigits value (last - 5) * 60 + twoDigits value (last - 2)
    if charCodeAt value (last - 6) = 43 then minutes else -minutes

def utcMinutes (value : JSString) : ℤ :=
  twoDigits value 11 * 60 + twoDigits value 14 - offsetMinutes value

def minutesPerDay : ℤ := 1440

def isDateTime (value : JSString) (leapSeconds : Bool) : Bool :=
  if !dateTimePattern.rmatch value then false
  else
    let tens := charCodeAt value 8
    let leap := charCodeAt value 17 = 54
    -- Days 01-28 are in every month.
    if ¬leap ∧ (tens < 50 ∨ tens = 50 ∧ charCodeAt value 9 < 57) then true
    else if !dayExists value then false
    else if ¬leap then true
    else if !leapSeconds then false
    else
      let minutes := (utcMinutes value).tmod minutesPerDay
      (minutes + minutesPerDay).tmod minutesPerDay = minutesPerDay - 1

def msPerDay : ℤ := 86400000

def fractionScale : List ℤ := [100, 10, 1]

def daysFromCivil (year month day : ℤ) : ℤ :=
  let y := if month ≤ 2 then year - 1 else year
  let era := y / 400
  let yearOfEra := y - era * 400
  let dayOfYear := (153 * (if 2 < month then month - 3 else month + 9) + 2) / 5 + day - 1
  let dayOfEra := yearOfEra * 365 + yearOfEra / 4 - yearOfEra / 100 + dayOfYear
  era * 146097 + dayOfEra - 719468

def readFraction (value : JSString) : ℕ → List ℤ → ℤ
  | _, [] => 0
  | at', scale :: scales =>
    let digit := charCodeAt value at' - 48
    if digit < 0 ∨ 9 < digit then 0 else digit * scale + readFraction value (at' + 1) scales

/-- The instant that a date-time names, in ms since the epoch; none is `NaN`. -/
def dateTimeMs (value : JSString) : Option ℤ :=
  if !isDateTime value false then none
  else
    let ms := if charCodeAt value 19 = 46 then readFraction value 20 fractionScale else 0
    let days := daysFromCivil (yearOf value) (twoDigits value 5) (twoDigits value 8)
    some (days * msPerDay + (utcMinutes value * 60 + twoDigits value 17) * 1000 + ms)

structure Date where
  year : ℤ
  month : ℕ
  day : ℕ
  deriving DecidableEq

def isLeapYear (year : ℤ) : Bool := 4 ∣ year ∧ (¬100 ∣ year ∨ 400 ∣ year)

def daysIn (year : ℤ) (month : ℕ) : ℕ :=
  if month = 2 then if isLeapYear year then 29 else 28
  else if month = 4 ∨ month = 6 ∨ month = 9 ∨ month = 11 then 30 else 31

namespace Date

structure Exists (date : Date) : Prop where
  month : 1 ≤ date.month ∧ date.month ≤ 12
  day : 1 ≤ date.day ∧ date.day ≤ daysIn date.year date.month

def next (date : Date) : Date :=
  if date.day < daysIn date.year date.month then { date with day := date.day + 1 }
  else if date.month < 12 then ⟨date.year, date.month + 1, 1⟩
  else ⟨date.year + 1, 1, 1⟩

inductive Counted : Date → ℤ → Prop
  | epoch : Counted ⟨1970, 1, 1⟩ 0
  | forth {date : Date} {n : ℤ} : Counted date n → Counted date.next (n + 1)
  | back {date : Date} {n : ℤ} : date.Exists → Counted date.next (n + 1) → Counted date n

def number (date : Date) : ℤ := daysFromCivil date.year date.month date.day

def yearDays (y : ℤ) : ℤ := 365 * y + y / 4 - y / 100 + y / 400

theorem daysFromCivil_eq (year month day : ℤ) : daysFromCivil year month day =
    yearDays (if month ≤ 2 then year - 1 else year) +
      (153 * (if 2 < month then month - 3 else month + 9) + 2) / 5 + day - 719469 := by
  unfold daysFromCivil yearDays
  dsimp only
  generalize (if month ≤ 2 then year - 1 else year) = y
  generalize (153 * (if 2 < month then month - 3 else month + 9) + 2) / 5 = days
  omega

theorem isLeapYear_iff {year : ℤ} :
    isLeapYear year ↔ year % 4 = 0 ∧ (year % 100 ≠ 0 ∨ year % 400 = 0) := by
  unfold isLeapYear
  rw [decide_eq_true_eq, Int.dvd_iff_emod_eq_zero, Int.dvd_iff_emod_eq_zero,
    Int.dvd_iff_emod_eq_zero]

theorem yearDays_succ (year : ℤ) :
    yearDays year = yearDays (year - 1) + 365 + (if isLeapYear year then 1 else 0) := by
  unfold yearDays
  by_cases hleap : isLeapYear year
  · rw [if_pos hleap]
    rw [isLeapYear_iff] at hleap
    omega
  · rw [if_neg hleap]
    rw [isLeapYear_iff] at hleap
    omega

theorem number_next {date : Date} (h : date.Exists) : date.next.number = date.number + 1 := by
  obtain ⟨year, month, day⟩ := date
  obtain ⟨⟨hmin, hmax⟩, hday, hlast⟩ := h
  dsimp only at hmin hmax hday hlast
  unfold next number
  dsimp only
  split_ifs with hin hmonth
  · rw [daysFromCivil_eq, daysFromCivil_eq]
    push_cast
    ring
  · obtain rfl : day = daysIn year month := by omega
    have hyear := yearDays_succ year
    rw [daysFromCivil_eq, daysFromCivil_eq]
    unfold daysIn
    interval_cases month <;> norm_num <;> split_ifs at * <;> omega
  · obtain rfl : month = 12 := by omega
    obtain rfl : day = 31 := by
      have : daysIn year 12 = 31 := rfl
      omega
    rw [daysFromCivil_eq, daysFromCivil_eq]
    norm_num
    ring

theorem le_daysIn (year : ℤ) (month : ℕ) : 28 ≤ daysIn year month := by
  unfold daysIn
  split_ifs <;> omega

theorem exists_next {date : Date} (h : date.Exists) : date.next.Exists := by
  have hdays := le_daysIn date.year (date.month + 1)
  have hfirst := le_daysIn (date.year + 1) 1
  unfold next
  split_ifs with hin hmonth
  · exact ⟨h.month, Nat.succ_pos _, hin⟩
  · exact ⟨⟨Nat.succ_pos _, hmonth⟩, le_rfl, le_trans (show 1 ≤ 28 by decide) hdays⟩
  · exact ⟨⟨le_rfl, show 1 ≤ 12 by decide⟩, le_rfl, le_trans (show 1 ≤ 28 by decide) hfirst⟩

theorem Counted.eq_number {date : Date} {n : ℤ} (h : Counted date n) :
    date.Exists ∧ n = date.number := by
  induction h with
  | epoch => exact ⟨⟨by decide, by decide⟩, rfl⟩
  | forth _ ih => exact ⟨exists_next ih.1, by rw [number_next ih.1, ← ih.2]⟩
  | back h _ ih => exact ⟨h, by rw [number_next h] at ih; omega⟩

theorem counted_next_iff {date : Date} (h : date.Exists) :
    Counted date.next date.next.number ↔ Counted date date.number := by
  rw [number_next h]
  exact ⟨.back h, .forth⟩

theorem counted_day_iff {year : ℤ} {month day : ℕ} (hmonth : 1 ≤ month ∧ month ≤ 12)
    (hpos : 1 ≤ day) (hday : day ≤ daysIn year month) :
    Counted ⟨year, month, day⟩ (number ⟨year, month, day⟩) ↔
      Counted ⟨year, month, 1⟩ (number ⟨year, month, 1⟩) := by
  induction day, hpos using Nat.le_induction with
  | base => rfl
  | succ day hpos ih =>
    have hexists : (⟨year, month, day⟩ : Date).Exists := ⟨hmonth, hpos, Nat.le_of_succ_le hday⟩
    have hnext : (⟨year, month, day⟩ : Date).next = ⟨year, month, day + 1⟩ := if_pos hday
    rw [← ih (Nat.le_of_succ_le hday), ← counted_next_iff hexists, hnext]

theorem counted_month_iff {year : ℤ} {month : ℕ} (hpos : 1 ≤ month) (hmonth : month ≤ 12) :
    Counted ⟨year, month, 1⟩ (number ⟨year, month, 1⟩) ↔
      Counted ⟨year, 1, 1⟩ (number ⟨year, 1, 1⟩) := by
  induction month, hpos using Nat.le_induction with
  | base => rfl
  | succ month hpos ih =>
    have hdays := le_daysIn year month
    have hbound : 1 ≤ month ∧ month ≤ 12 := ⟨hpos, by omega⟩
    have hexists : (⟨year, month, daysIn year month⟩ : Date).Exists :=
      ⟨hbound, le_trans (show 1 ≤ 28 by decide) hdays, le_rfl⟩
    have hnext : (⟨year, month, daysIn year month⟩ : Date).next = ⟨year, month + 1, 1⟩ :=
      (if_neg (lt_irrefl _)).trans (if_pos hmonth)
    rw [← ih hbound.2, ← counted_day_iff hbound hexists.day.1 le_rfl, ← counted_next_iff hexists,
      hnext]

theorem counted_year_succ_iff (year : ℤ) :
    Counted ⟨year + 1, 1, 1⟩ (number ⟨year + 1, 1, 1⟩) ↔
      Counted ⟨year, 1, 1⟩ (number ⟨year, 1, 1⟩) := by
  have hbound : 1 ≤ 12 ∧ 12 ≤ 12 := by decide
  have hdays := le_daysIn year 12
  have hexists : (⟨year, 12, daysIn year 12⟩ : Date).Exists :=
    ⟨hbound, le_trans (show 1 ≤ 28 by decide) hdays, le_rfl⟩
  have hnext : (⟨year, 12, daysIn year 12⟩ : Date).next = ⟨year + 1, 1, 1⟩ :=
    (if_neg (lt_irrefl _)).trans (if_neg (lt_irrefl 12))
  have hstep := counted_next_iff hexists
  rw [hnext] at hstep
  exact hstep.trans ((counted_day_iff hbound hexists.day.1 le_rfl).trans
    (counted_month_iff hbound.1 hbound.2))

theorem counted_year (year : ℤ) : Counted ⟨year, 1, 1⟩ (number ⟨year, 1, 1⟩) := by
  induction year using Int.inductionOn' (b := 1970) with
  | zero => exact .epoch
  | succ year _ ih => exact (counted_year_succ_iff year).mpr ih
  | pred year _ ih =>
    refine (counted_year_succ_iff (year - 1)).mp ?_
    rwa [sub_add_cancel]

theorem counted_iff {date : Date} (h : date.Exists) {n : ℤ} :
    Counted date n ↔ n = daysFromCivil date.year date.month date.day := by
  constructor
  · exact fun hn => hn.eq_number.2
  · rintro rfl
    obtain ⟨year, month, day⟩ := date
    exact (counted_day_iff h.month h.day.1 h.day.2).mpr
      ((counted_month_iff h.month.1 h.month.2).mpr (counted_year year))

end Date

/-- The fields of a date-time: the digits of the fraction, and the offset in minutes. -/
structure DateTime where
  year : ℕ
  month : ℕ
  day : ℕ
  hour : ℕ
  minute : ℕ
  second : ℕ
  fraction : List ℕ
  offset : ℤ

def two (n : ℕ) : JSString := [48 + n / 10, 48 + n % 10]

def four (n : ℕ) : JSString := two (n / 100) ++ two (n % 100)

inductive FractionText : List ℕ → JSString → Prop
  | none : FractionText [] []
  | some {fraction : List ℕ} : fraction ≠ [] → (∀ d ∈ fraction, d < 10) →
      FractionText fraction (46 :: fraction.map (48 + ·))

inductive ZoneText : ℤ → JSString → Prop
  | utc {c : ℕ} : c = 90 ∨ c = 122 → ZoneText 0 [c]
  | ahead {hour minute : ℕ} : hour < 24 → minute < 60 →
      ZoneText (hour * 60 + minute) (43 :: (two hour ++ 58 :: two minute))
  | behind {hour minute : ℕ} : hour < 24 → minute < 60 →
      ZoneText (-(hour * 60 + minute)) (45 :: (two hour ++ 58 :: two minute))

namespace DateTime

def date (t : DateTime) : Date := ⟨t.year, t.month, t.day⟩

structure IsText (t : DateTime) (value : JSString) : Prop where
  year : t.year < 10000
  month : 1 ≤ t.month ∧ t.month ≤ 12
  day : 1 ≤ t.day ∧ t.day ≤ 31
  hour : t.hour < 24
  minute : t.minute < 60
  second : t.second ≤ 60
  text : ∃ (letter : ℕ) (fraction zone : JSString), (letter = 84 ∨ letter = 116) ∧
    FractionText t.fraction fraction ∧ ZoneText t.offset zone ∧
    value = four t.year ++ 45 :: (two t.month ++ 45 :: (two t.day ++ letter :: (two t.hour ++
      58 :: (two t.minute ++ 58 :: (two t.second ++ (fraction ++ zone))))))

end DateTime

theorem oneOf_rmatch_iff {units : List ℕ} {w : JSString} :
    (oneOf units).rmatch w ↔ ∃ c ∈ units, w = [c] := by
  induction units with
  | nil => simp [oneOf, zero_rmatch]
  | cons c units ih =>
    rw [oneOf, List.foldr_cons, add_rmatch_iff, char_rmatch_iff, ← oneOf, ih]
    simp

theorem concat_nil_rmatch_iff {w : JSString} : (concat []).rmatch w ↔ w = [] := one_rmatch_iff w

theorem concat_cons_rmatch_iff {r : RegularExpression ℕ} {rs : List (RegularExpression ℕ)}
    {w : JSString} : (concat (r :: rs)).rmatch w ↔
      ∃ front rest, w = front ++ rest ∧ r.rmatch front ∧ (concat rs).rmatch rest := by
  rw [concat, List.foldr_cons, mul_rmatch_iff]
  rfl

theorem pair_rmatch_iff {tens units : List ℕ} {w : JSString} :
    (oneOf tens * oneOf units).rmatch w ↔ ∃ c ∈ tens, ∃ d ∈ units, w = [c, d] := by
  rw [mul_rmatch_iff]
  constructor
  · rintro ⟨front, rest, rfl, hfront, hrest⟩
    obtain ⟨c, hc, rfl⟩ := oneOf_rmatch_iff.mp hfront
    obtain ⟨d, hd, rfl⟩ := oneOf_rmatch_iff.mp hrest
    exact ⟨c, hc, d, hd, rfl⟩
  · rintro ⟨c, hc, d, hd, rfl⟩
    exact ⟨[c], [d], rfl, oneOf_rmatch_iff.mpr ⟨c, hc, rfl⟩, oneOf_rmatch_iff.mpr ⟨d, hd, rfl⟩⟩

theorem mem_digits_iff {c : ℕ} : c ∈ digits ↔ 48 ≤ c ∧ c ≤ 57 := by
  simp only [digits, List.mem_cons, List.not_mem_nil, or_false]
  omega

def MatchesTwo (r : RegularExpression ℕ) : Prop := ∀ w, r.rmatch w → ∃ n < 100, w = two n

theorem matchesTwo_pair {tens units : List ℕ} (htens : tens ⊆ digits) (hunits : units ⊆ digits) :
    MatchesTwo (oneOf tens * oneOf units) := by
  intro w hw
  obtain ⟨c, hc, d, hd, rfl⟩ := pair_rmatch_iff.mp hw
  have htens := mem_digits_iff.mp (htens hc)
  have hunits := mem_digits_iff.mp (hunits hd)
  refine ⟨(c - 48) * 10 + (d - 48), by omega, ?_⟩
  simp only [two, List.cons.injEq, and_true]
  omega

theorem MatchesTwo.add {r r' : RegularExpression ℕ} (h : MatchesTwo r) (h' : MatchesTwo r') :
    MatchesTwo (r + r') := by
  intro w hw
  exact ((add_rmatch_iff r r' w).mp hw).elim (h w) (h' w)

theorem MatchesTwo.iff {r : RegularExpression ℕ} {q : ℕ → Prop} (h : MatchesTwo r)
    (hq : ∀ n < 100, r.rmatch (two n) ↔ q n) (hbound : ∀ n, q n → n < 100) {w : JSString} :
    r.rmatch w ↔ ∃ n, q n ∧ w = two n := by
  constructor
  · intro hw
    obtain ⟨n, hn, rfl⟩ := h w hw
    exact ⟨n, (hq n hn).mp hw, rfl⟩
  · rintro ⟨n, hn, rfl⟩
    exact (hq n (hbound n hn)).mpr hn

theorem month_rmatch_iff {w : JSString} :
    monthPattern.rmatch w ↔ ∃ n, (1 ≤ n ∧ n ≤ 12) ∧ w = two n := by
  have htwo : MatchesTwo monthPattern :=
    (matchesTwo_pair (by decide) (by decide)).add (matchesTwo_pair (by decide) (by decide))
  exact htwo.iff (by decide +kernel) (by omega)

theorem day_rmatch_iff {w : JSString} :
    dayPattern.rmatch w ↔ ∃ n, (1 ≤ n ∧ n ≤ 31) ∧ w = two n := by
  have htwo : MatchesTwo dayPattern := (matchesTwo_pair (by decide) (by decide)).add
    ((matchesTwo_pair (by decide) (by decide)).add (matchesTwo_pair (by decide) (by decide)))
  exact htwo.iff (by decide +kernel) (by omega)

theorem hour_rmatch_iff {w : JSString} : hourPattern.rmatch w ↔ ∃ n, n < 24 ∧ w = two n := by
  have htwo : MatchesTwo hourPattern :=
    (matchesTwo_pair (by decide) (by decide)).add (matchesTwo_pair (by decide) (by decide))
  exact htwo.iff (by decide +kernel) (by omega)

theorem minute_rmatch_iff {w : JSString} : minutePattern.rmatch w ↔ ∃ n, n < 60 ∧ w = two n := by
  have htwo : MatchesTwo minutePattern := matchesTwo_pair (by decide) (by decide)
  exact htwo.iff (by decide +kernel) (by omega)

theorem second_rmatch_iff {w : JSString} : secondPattern.rmatch w ↔ ∃ n, n ≤ 60 ∧ w = two n := by
  have htwo : MatchesTwo secondPattern :=
    (matchesTwo_pair (by decide) (by decide)).add (matchesTwo_pair (by decide) (by decide))
  exact htwo.iff (by decide +kernel) (by omega)

theorem year_rmatch_iff {w : JSString} :
    yearPattern.rmatch w ↔ ∃ n, n < 10000 ∧ w = four n := by
  have hdigit : ∀ {v : JSString}, (oneOf digits).rmatch v ↔ ∃ d < 10, v = [48 + d] := by
    intro v
    rw [oneOf_rmatch_iff]
    constructor
    · rintro ⟨c, hc, rfl⟩
      have hc := mem_digits_iff.mp hc
      exact ⟨c - 48, by omega, by rw [Nat.add_sub_cancel' hc.1]⟩
    · rintro ⟨d, hd, rfl⟩
      exact ⟨48 + d, mem_digits_iff.mpr (by omega), rfl⟩
  unfold yearPattern
  simp only [concat_cons_rmatch_iff, concat_nil_rmatch_iff, hdigit]
  constructor
  · rintro ⟨_, _, rfl, ⟨a, ha, rfl⟩, _, _, rfl, ⟨b, hb, rfl⟩, _, _, rfl, ⟨c, hc, rfl⟩, _, _, rfl,
      ⟨d, hd, rfl⟩, rfl⟩
    refine ⟨((a * 10 + b) * 10 + c) * 10 + d, by omega, ?_⟩
    simp only [four, two, List.cons_append, List.nil_append, List.cons.injEq, and_true]
    omega
  · rintro ⟨n, hn, rfl⟩
    have hfour : four n = [48 + n / 1000] ++ ([48 + n / 100 % 10] ++ ([48 + n % 100 / 10] ++
        ([48 + n % 10] ++ []))) := by
      simp only [four, two, List.cons_append, List.nil_append, List.cons.injEq, and_true,
        true_and]
      omega
    exact ⟨_, _, hfour, ⟨n / 1000, by omega, rfl⟩, _, _, rfl, ⟨n / 100 % 10, by omega, rfl⟩, _, _,
      rfl, ⟨n % 100 / 10, by omega, rfl⟩, _, _, rfl, ⟨n % 10, by omega, rfl⟩, rfl⟩

theorem digit_rmatch_iff {w : JSString} : (oneOf digits).rmatch w ↔ ∃ d < 10, w = [48 + d] := by
  rw [oneOf_rmatch_iff]
  constructor
  · rintro ⟨c, hc, rfl⟩
    have hc := mem_digits_iff.mp hc
    exact ⟨c - 48, by omega, by rw [Nat.add_sub_cancel' hc.1]⟩
  · rintro ⟨d, hd, rfl⟩
    exact ⟨48 + d, mem_digits_iff.mpr (by omega), rfl⟩

theorem star_digits_rmatch_iff {w : JSString} :
    (star (oneOf digits)).rmatch w ↔ ∃ ds : List ℕ, (∀ d ∈ ds, d < 10) ∧ w = ds.map (48 + ·) := by
  rw [star_rmatch_iff]
  constructor
  · rintro ⟨pieces, rfl, hpieces⟩
    induction pieces with
    | nil => exact ⟨[], nofun, rfl⟩
    | cons piece pieces ih =>
      obtain ⟨ds, hds, hrest⟩ := ih fun t ht => hpieces t (List.mem_cons_of_mem _ ht)
      obtain ⟨d, hd, rfl⟩ := digit_rmatch_iff.mp (hpieces piece List.mem_cons_self).2
      exact ⟨d :: ds, List.forall_mem_cons.mpr ⟨hd, hds⟩, by rw [List.flatten_cons, hrest]; rfl⟩
  · rintro ⟨ds, hds, rfl⟩
    refine ⟨ds.map fun d => [48 + d], ?_, fun piece hpiece => ?_⟩
    · induction ds with
      | nil => rfl
      | cons d ds ih =>
        rw [List.map_cons, List.map_cons, List.flatten_cons,
          ← ih fun d hd => hds d (List.mem_cons_of_mem _ hd)]
        rfl
    · obtain ⟨d, hd, rfl⟩ := List.mem_map.mp hpiece
      exact ⟨List.cons_ne_nil _ _, digit_rmatch_iff.mpr ⟨d, hds d hd, rfl⟩⟩

theorem fraction_rmatch_iff {w : JSString} :
    fractionPattern.rmatch w ↔ ∃ ds, FractionText ds w := by
  rw [fractionPattern, opt, add_rmatch_iff, one_rmatch_iff]
  simp only [concat_cons_rmatch_iff, concat_nil_rmatch_iff, digit_rmatch_iff,
    star_digits_rmatch_iff]
  simp only [oneOf_rmatch_iff, List.mem_singleton]
  constructor
  · rintro (rfl | ⟨_, _, rfl, ⟨_, rfl, rfl⟩, _, _, rfl, ⟨d, hd, rfl⟩, _, _, rfl, ⟨ds, hds, rfl⟩,
      rfl⟩)
    · exact ⟨[], .none⟩
    · refine ⟨d :: ds, ?_⟩
      rw [List.append_nil]
      exact .some (List.cons_ne_nil _ _) (List.forall_mem_cons.mpr ⟨hd, hds⟩)
  · rintro ⟨ds, hds⟩
    cases hds with
    | none => exact Or.inl rfl
    | some hne hlt =>
      obtain ⟨d, ds, rfl⟩ := List.exists_cons_of_ne_nil hne
      obtain ⟨hd, hlt⟩ := List.forall_mem_cons.mp hlt
      exact Or.inr ⟨[46], _, rfl, ⟨46, rfl, rfl⟩, [48 + d], _, rfl, ⟨d, hd, rfl⟩, _, _,
        (List.append_nil _).symm, ⟨ds, hlt, rfl⟩, rfl⟩

theorem zone_rmatch_iff {w : JSString} : zonePattern.rmatch w ↔ ∃ offset, ZoneText offset w := by
  rw [zonePattern, add_rmatch_iff]
  simp only [concat_cons_rmatch_iff, concat_nil_rmatch_iff, hour_rmatch_iff, minute_rmatch_iff,
    oneOf_rmatch_iff, List.mem_cons, List.not_mem_nil, or_false]
  constructor
  · rintro (⟨c, hc, rfl⟩ | ⟨_, _, rfl, ⟨c, hc, rfl⟩, _, _, rfl, ⟨hour, hhour, rfl⟩, _, _, rfl,
      ⟨_, rfl, rfl⟩, _, _, rfl, ⟨minute, hminute, rfl⟩, rfl⟩)
    · exact ⟨0, .utc hc⟩
    · rw [List.append_nil]
      rcases hc with rfl | rfl
      · exact ⟨_, .ahead hhour hminute⟩
      · exact ⟨_, .behind hhour hminute⟩
  · have hsigned : ∀ {c hour minute : ℕ}, (c = 43 ∨ c = 45) → hour < 24 → minute < 60 →
        ∃ front rest, c :: (two hour ++ 58 :: two minute) = front ++ rest ∧
          (∃ c, (c = 43 ∨ c = 45) ∧ front = [c]) ∧ ∃ front rest', rest = front ++ rest' ∧
          (∃ n, n < 24 ∧ front = two n) ∧ ∃ front rest, rest' = front ++ rest ∧
          (∃ c, c = 58 ∧ front = [c]) ∧ ∃ front rest', rest = front ++ rest' ∧
          (∃ n, n < 60 ∧ front = two n) ∧ rest' = [] := by
      intro c hour minute hc hhour hminute
      exact ⟨[c], _, rfl, ⟨c, hc, rfl⟩, _, _, rfl, ⟨hour, hhour, rfl⟩, [58], _, rfl, ⟨58, rfl, rfl⟩,
        _, _, (List.append_nil _).symm, ⟨minute, hminute, rfl⟩, rfl⟩
    rintro ⟨offset, hoffset⟩
    cases hoffset with
    | utc hc => exact Or.inl ⟨_, hc, rfl⟩
    | ahead hhour hminute => exact Or.inr (hsigned (Or.inl rfl) hhour hminute)
    | behind hhour hminute => exact Or.inr (hsigned (Or.inr rfl) hhour hminute)

theorem dateTime_rmatch_iff {value : JSString} :
    dateTimePattern.rmatch value ↔ ∃ t : DateTime, t.IsText value := by
  unfold dateTimePattern
  simp only [concat_cons_rmatch_iff, concat_nil_rmatch_iff, year_rmatch_iff, month_rmatch_iff,
    day_rmatch_iff, hour_rmatch_iff, minute_rmatch_iff, second_rmatch_iff, fraction_rmatch_iff,
    zone_rmatch_iff, oneOf_rmatch_iff, List.mem_cons, List.not_mem_nil, or_false]
  constructor
  · rintro ⟨_, _, rfl, ⟨year, hyear, rfl⟩, _, _, rfl, ⟨_, rfl, rfl⟩, _, _, rfl,
      ⟨month, hmonth, rfl⟩, _, _, rfl, ⟨_, rfl, rfl⟩, _, _, rfl, ⟨day, hday, rfl⟩, _, _, rfl,
      ⟨letter, hletter, rfl⟩, _, _, rfl, ⟨hour, hhour, rfl⟩, _, _, rfl, ⟨_, rfl, rfl⟩, _, _, rfl,
      ⟨minute, hminute, rfl⟩, _, _, rfl, ⟨_, rfl, rfl⟩, _, _, rfl, ⟨second, hsecond, rfl⟩,
      fraction, _, rfl, ⟨ds, hfraction⟩, zone, _, rfl, ⟨offset, hzone⟩, rfl⟩
    refine ⟨⟨year, month, day, hour, minute, second, ds, offset⟩, hyear, hmonth, hday, hhour,
      hminute, hsecond, letter, fraction, zone, hletter, hfraction, hzone, ?_⟩
    rw [List.append_nil]
    rfl
  · rintro ⟨t, ht⟩
    obtain ⟨letter, fraction, zone, hletter, hfraction, hzone, rfl⟩ := ht.text
    exact ⟨_, _, rfl, ⟨t.year, ht.year, rfl⟩, [45], _, rfl, ⟨45, rfl, rfl⟩, _, _, rfl,
      ⟨t.month, ht.month, rfl⟩, [45], _, rfl, ⟨45, rfl, rfl⟩, _, _, rfl, ⟨t.day, ht.day, rfl⟩,
      [letter], _, rfl, ⟨letter, hletter, rfl⟩, _, _, rfl, ⟨t.hour, ht.hour, rfl⟩, [58], _, rfl,
      ⟨58, rfl, rfl⟩, _, _, rfl, ⟨t.minute, ht.minute, rfl⟩, [58], _, rfl, ⟨58, rfl, rfl⟩, _, _,
      rfl, ⟨t.second, ht.second, rfl⟩, _, _, rfl, ⟨t.fraction, hfraction⟩, _, _,
      (List.append_nil _).symm, ⟨t.offset, hzone⟩, rfl⟩

theorem twoDigits_of {value : JSString} {at' n : ℕ}
    (htens : value.getD at' 0 = 48 + n / 10) (hunits : value.getD (at' + 1) 0 = 48 + n % 10) :
    twoDigits value at' = n := by
  rw [twoDigits, charCodeAt, charCodeAt, htens, hunits]
  push_cast
  omega

theorem charCodeAt_append (front rest : JSString) (i : ℕ) :
    charCodeAt (front ++ rest) (front.length + i) = charCodeAt rest i := by
  rw [charCodeAt, charCodeAt, List.getD_eq_getElem?_getD, List.getD_eq_getElem?_getD,
    List.getElem?_append_right (Nat.le_add_right _ _), Nat.add_sub_cancel_left]

theorem twoDigits_append (front rest : JSString) (i : ℕ) :
    twoDigits (front ++ rest) (front.length + i) = twoDigits rest i := by
  rw [twoDigits, twoDigits, charCodeAt_append, Nat.add_assoc, charCodeAt_append]

theorem offsetMinutes_of_zone {offset : ℤ} {zone : JSString} (h : ZoneText offset zone)
    (front : JSString) : offsetMinutes (front ++ zone) = offset := by
  have hsigned : ∀ {sign hour minute : ℕ}, hour < 24 → minute < 60 → sign = 43 ∨ sign = 45 →
      offsetMinutes (front ++ sign :: (two hour ++ 58 :: two minute)) =
        if sign = 43 then (hour * 60 + minute : ℤ) else -(hour * 60 + minute) := by
    intro sign hour minute hhour hminute hsign
    have hlength : (front ++ sign :: (two hour ++ 58 :: two minute)).length = front.length + 6 := by
      rw [List.length_append]
      rfl
    have hlast : charCodeAt (front ++ sign :: (two hour ++ 58 :: two minute)) (front.length + 5) =
        ((48 + minute % 10 : ℕ) : ℤ) := charCodeAt_append _ _ 5
    have hsix : charCodeAt (front ++ sign :: (two hour ++ 58 :: two minute)) (front.length + 0) =
        (sign : ℤ) := charCodeAt_append _ _ 0
    have hhours : twoDigits (front ++ sign :: (two hour ++ 58 :: two minute)) (front.length + 1) =
        hour := (twoDigits_append _ _ 1).trans (twoDigits_of rfl rfl)
    have hminutes : twoDigits (front ++ sign :: (two hour ++ 58 :: two minute)) (front.length + 4) =
        minute := (twoDigits_append _ _ 4).trans (twoDigits_of rfl rfl)
    have hdigit : ¬(((48 + minute % 10 : ℕ) : ℤ) = 90 ∨ ((48 + minute % 10 : ℕ) : ℤ) = 122) := by
      omega
    unfold offsetMinutes
    dsimp only
    rw [hlength, show front.length + 6 - 1 = front.length + 5 from rfl,
      show front.length + 6 - 5 = front.length + 1 from rfl,
      show front.length + 6 - 2 = front.length + 4 from rfl,
      show front.length + 6 - 6 = front.length + 0 from rfl, hlast, hsix, hhours, hminutes,
      if_neg hdigit]
    rcases hsign with rfl | rfl <;> rfl
  cases h with
  | utc hc =>
    unfold offsetMinutes
    dsimp only
    rw [List.length_append, List.length_singleton,
      show front.length + 1 - 1 = front.length + 0 from rfl, charCodeAt_append]
    exact if_pos (by rcases hc with rfl | rfl <;> decide)
  | ahead hhour hminute => exact hsigned hhour hminute (Or.inl rfl)
  | behind hhour hminute => exact hsigned hhour hminute (Or.inr rfl)

namespace DateTime.IsText

variable {t : DateTime} {value : JSString}

structure Fields (t : DateTime) (value : JSString) : Prop where
  year : yearOf value = t.year
  month : twoDigits value 5 = t.month
  day : twoDigits value 8 = t.day
  dayTens : charCodeAt value 8 = ((48 + t.day / 10 : ℕ) : ℤ)
  dayUnits : charCodeAt value 9 = ((48 + t.day % 10 : ℕ) : ℤ)
  hour : twoDigits value 11 = t.hour
  minute : twoDigits value 14 = t.minute
  secondTens : charCodeAt value 17 = ((48 + t.second / 10 : ℕ) : ℤ)
  second : twoDigits value 17 = t.second
  offset : offsetMinutes value = t.offset

theorem fields (h : t.IsText value) : Fields t value := by
  obtain ⟨letter, fraction, zone, -, -, hzone, rfl⟩ := h.text
  refine ⟨?_, twoDigits_of rfl rfl, twoDigits_of rfl rfl, rfl, rfl, twoDigits_of rfl rfl,
    twoDigits_of rfl rfl, rfl, twoDigits_of rfl rfl, ?_⟩
  · have hhigh : twoDigits (four t.year ++ 45 :: (two t.month ++ 45 :: (two t.day ++ letter ::
        (two t.hour ++ 58 :: (two t.minute ++ 58 :: (two t.second ++ (fraction ++ zone))))))) 0 =
        (t.year / 100 : ℕ) := twoDigits_of rfl rfl
    have hlow : twoDigits (four t.year ++ 45 :: (two t.month ++ 45 :: (two t.day ++ letter ::
        (two t.hour ++ 58 :: (two t.minute ++ 58 :: (two t.second ++ (fraction ++ zone))))))) 2 =
        (t.year % 100 : ℕ) := twoDigits_of rfl rfl
    rw [yearOf, hhigh, hlow]
    push_cast
    omega
  · have hfront : four t.year ++ 45 :: (two t.month ++ 45 :: (two t.day ++ letter ::
        (two t.hour ++ 58 :: (two t.minute ++ 58 :: (two t.second ++ (fraction ++ zone)))))) =
        (four t.year ++ 45 :: (two t.month ++ 45 :: (two t.day ++ letter :: (two t.hour ++
          58 :: (two t.minute ++ 58 :: (two t.second ++ fraction)))))) ++ zone := by
      simp
    rw [hfront]
    exact offsetMinutes_of_zone hzone _

theorem dayExists_iff (h : t.IsText value) :
    dayExists value ↔ t.day ≤ daysIn t.year t.month := by
  obtain ⟨hyear, hmonth, hday, -⟩ := h.fields
  have hleap : isLeapYear t.year ↔
      (t.year : ℤ).tmod 4 = 0 ∧ ((t.year : ℤ).tmod 100 ≠ 0 ∨ (t.year : ℤ).tmod 400 = 0) := by
    rw [Date.isLeapYear_iff, Int.tmod_eq_emod_of_nonneg (by omega),
      Int.tmod_eq_emod_of_nonneg (by omega), Int.tmod_eq_emod_of_nonneg (by omega)]
  have hfirst := Date.le_daysIn t.year t.month
  have hbound := h.day
  unfold dayExists
  dsimp only
  rw [hyear, hmonth, hday]
  split_ifs with hearly hfebruary hthirty
  · exact iff_of_true rfl (by omega)
  · have hdays : daysIn t.year t.month = 30 := by
      unfold daysIn
      split_ifs <;> omega
    rw [hdays, decide_eq_true_eq]
    omega
  · have hdays : daysIn t.year t.month = 31 := by
      unfold daysIn
      split_ifs <;> omega
    rw [hdays, decide_eq_true_eq]
    omega
  · have htwo : t.month = 2 := by omega
    rw [decide_eq_true_eq, ← hleap]
    unfold daysIn
    rw [if_pos htwo]
    split_ifs with hyes
    · rw [and_iff_left hyes]
      omega
    · exact iff_of_false (fun h => hyes h.2) (by omega)

end DateTime.IsText

namespace DateTime

def utc (t : DateTime) : ℤ := t.hour * 60 + t.minute - t.offset

/-- A day that its month has, and a second of 60 only at 23:59 UTC. -/
structure Valid (t : DateTime) (leapSeconds : Bool) : Prop where
  date : t.day ≤ daysIn t.year t.month
  leap : t.second = 60 → leapSeconds = true ∧ t.utc % 1440 = 23 * 60 + 59

variable {t : DateTime} {value : JSString} {leapSeconds : Bool}

theorem IsText.utcMinutes_eq (h : t.IsText value) : utcMinutes value = t.utc := by
  rw [utcMinutes, h.fields.hour, h.fields.minute, h.fields.offset, utc]

theorem tmod_day (m : ℤ) : ((m.tmod minutesPerDay + minutesPerDay).tmod minutesPerDay =
    minutesPerDay - 1) ↔ m % 1440 = 23 * 60 + 59 := by
  unfold minutesPerDay
  have hlow := Int.lt_tmod_of_pos m (show (0 : ℤ) < 1440 by decide)
  have hnonneg : 0 ≤ m.tmod 1440 + 1440 := by omega
  rw [Int.tmod_eq_emod_of_nonneg hnonneg]
  obtain ⟨k, hk⟩ := @Int.dvd_tmod_sub_self m 1440
  omega

theorem IsText.isDateTime_iff (h : t.IsText value) :
    isDateTime value leapSeconds ↔ t.Valid leapSeconds := by
  have hmatch : dateTimePattern.rmatch value = true := dateTime_rmatch_iff.mpr ⟨t, h⟩
  have hsecond := h.second
  have hleap : charCodeAt value 17 = 54 ↔ t.second = 60 := by
    rw [h.fields.secondTens]
    omega
  have hfast : (charCodeAt value 8 < 50 ∨ charCodeAt value 8 = 50 ∧ charCodeAt value 9 < 57) ↔
      t.day ≤ 28 := by
    rw [h.fields.dayTens, h.fields.dayUnits]
    omega
  have hdays := Date.le_daysIn t.year t.month
  unfold isDateTime
  dsimp only
  rw [hmatch, h.utcMinutes_eq]
  simp only [hleap, hfast, Bool.not_true, Bool.false_eq_true, if_false]
  by_cases hday : t.day ≤ daysIn t.year t.month
  · have hexists : dayExists value = true := h.dayExists_iff.mpr hday
    by_cases hsixty : t.second = 60
    · cases leapSeconds with
      | false => exact iff_of_false (by simp [hsixty, hexists]) fun hv => nomatch (hv.leap hsixty).1
      | true =>
        have hrun : (t.utc.tmod minutesPerDay + minutesPerDay).tmod minutesPerDay =
            minutesPerDay - 1 ↔ t.Valid true :=
          (tmod_day t.utc).trans
            ⟨fun hutc => ⟨hday, fun _ => ⟨rfl, hutc⟩⟩, fun hv => (hv.leap hsixty).2⟩
        rw [← hrun]
        simp [hsixty, hexists]
    · exact iff_of_true (by simp [hsixty, hexists]) ⟨hday, fun h => absurd h hsixty⟩
  · have hnone : dayExists value = false :=
      Bool.eq_false_iff.mpr fun hyes => hday (h.dayExists_iff.mp hyes)
    have hlate : ¬t.day ≤ 28 := by omega
    exact iff_of_false (by simp [hlate, hnone]) fun hv => hday hv.date

def fractionValue : List ℕ → ℚ
  | [] => 0
  | d :: ds => (d + fractionValue ds) / 10

def instant (t : DateTime) (days : ℤ) : ℚ :=
  days * 86400000 + (t.utc * 60 + t.second) * 1000 + fractionValue t.fraction * 1000

theorem fractionValue_bounds {ds : List ℕ} (h : ∀ d ∈ ds, d < 10) :
    0 ≤ fractionValue ds ∧ fractionValue ds < 1 := by
  induction ds with
  | nil => exact ⟨le_rfl, zero_lt_one⟩
  | cons d ds ih =>
    obtain ⟨hd, hds⟩ := List.forall_mem_cons.mp h
    obtain ⟨hlow, hhigh⟩ := ih hds
    have hlow' : (0 : ℚ) ≤ d := Nat.cast_nonneg d
    have hhigh' : (d : ℚ) ≤ 9 := by exact_mod_cast Nat.le_of_lt_succ hd
    unfold fractionValue
    constructor <;> linarith

def scaled : List ℕ → List ℤ → ℤ
  | d :: ds, scale :: scales => d * scale + scaled ds scales
  | _, _ => 0

theorem floor_fraction {ds : List ℕ} (h : ∀ d ∈ ds, d < 10) :
    ⌊fractionValue ds * 1000⌋ = scaled ds fractionScale := by
  rw [Int.floor_eq_iff]
  match ds with
  | [] => norm_num [fractionValue, scaled]
  | [a] =>
    norm_num [fractionValue, scaled, fractionScale]
    constructor <;> linarith
  | [a, b] =>
    norm_num [fractionValue, scaled, fractionScale]
    constructor <;> linarith
  | a :: b :: c :: rest =>
    have hrest : ∀ d ∈ rest, d < 10 := fun d hd => h d (by simp [hd])
    obtain ⟨hlow, hhigh⟩ := fractionValue_bounds hrest
    have hend : scaled rest [] = 0 := by cases rest <;> rfl
    norm_num [fractionValue, scaled, fractionScale, hend]
    constructor <;> linarith

theorem readFraction_eq {ds : List ℕ} {c : ℕ} (h : ∀ d ∈ ds, d < 10) (hc : c < 48 ∨ 57 < c)
    (front zone : JSString) (scales : List ℤ) :
    readFraction (front ++ (ds.map (48 + ·) ++ c :: zone)) front.length scales =
      scaled ds scales := by
  induction scales generalizing ds front with
  | nil => cases ds <;> rfl
  | cons scale scales ih =>
    cases ds with
    | nil =>
      have hchar : charCodeAt (front ++ c :: zone) (front.length + 0) = (c : ℤ) :=
        charCodeAt_append _ _ 0
      rw [List.map_nil, List.nil_append, readFraction]
      rw [← Nat.add_zero front.length, hchar, if_pos (by omega)]
      rfl
    | cons d ds =>
      obtain ⟨hd, hds⟩ := List.forall_mem_cons.mp h
      have hchar : charCodeAt (front ++ ((48 + d) :: (ds.map (48 + ·) ++ c :: zone)))
          (front.length + 0) = ((48 + d : ℕ) : ℤ) := charCodeAt_append _ _ 0
      have hrest : readFraction (front ++ ((48 + d) :: (ds.map (48 + ·) ++ c :: zone)))
          (front.length + 1) scales = scaled ds scales := by
        have := ih hds (front ++ [48 + d])
        rwa [List.append_assoc, List.length_append] at this
      rw [List.map_cons, List.cons_append, readFraction, hrest, scaled]
      rw [Nat.add_zero] at hchar
      rw [hchar, if_neg (by omega)]
      push_cast
      ring

theorem head_zone {offset : ℤ} {zone : JSString} (h : ZoneText offset zone) :
    ∃ c rest, zone = c :: rest ∧ c ≠ 46 ∧ (c < 48 ∨ 57 < c) := by
  cases h with
  | utc hc => exact ⟨_, _, rfl, by omega, by omega⟩
  | ahead => exact ⟨_, _, rfl, by decide, by decide⟩
  | behind => exact ⟨_, _, rfl, by decide, by decide⟩

theorem IsText.readFraction_eq (h : t.IsText value) :
    (if charCodeAt value 19 = 46 then readFraction value 20 fractionScale else 0) =
      ⌊fractionValue t.fraction * 1000⌋ := by
  obtain ⟨letter, fraction, zone, -, hfraction, hzone, rfl⟩ := h.text
  obtain ⟨c, rest, rfl, hdot, hc⟩ := head_zone hzone
  generalize t.fraction = ds at hfraction ⊢
  cases hfraction with
  | none =>
    refine (if_neg fun hchar => hdot ?_).trans (by norm_num [fractionValue])
    have hchar' : (c : ℤ) = 46 := hchar
    exact_mod_cast hchar'
  | some _ hlt =>
    rw [floor_fraction hlt]
    refine (if_pos rfl).trans ?_
    exact DateTime.readFraction_eq hlt hc (four t.year ++ 45 :: (two t.month ++ 45 :: (two t.day ++
      letter :: (two t.hour ++ 58 :: (two t.minute ++ 58 :: (two t.second ++ [46])))))) rest _

theorem IsText.dateTimeMs_eq (h : t.IsText value) (hvalid : t.Valid false) {days : ℤ}
    (hdays : t.date.Counted days) : dateTimeMs value = some ⌊t.instant days⌋ := by
  have hexists : t.date.Exists := ⟨h.month, h.day.1, hvalid.date⟩
  have hnumber := (Date.counted_iff hexists).mp hdays
  have hfloor : ⌊t.instant days⌋ =
      days * 86400000 + (t.utc * 60 + t.second) * 1000 + ⌊fractionValue t.fraction * 1000⌋ := by
    rw [instant, ← Int.floor_intCast_add]
    push_cast
    rfl
  unfold dateTimeMs
  rw [h.isDateTime_iff.mpr hvalid, hfloor, ← h.readFraction_eq, h.fields.year, h.fields.month,
    h.fields.day, h.fields.second, h.utcMinutes_eq, hnumber]
  rfl

end DateTime

theorem isDateTime_iff {value : JSString} {leapSeconds : Bool} :
    isDateTime value leapSeconds ↔ ∃ t : DateTime, t.IsText value ∧ t.Valid leapSeconds := by
  constructor
  · intro h
    have hmatch : dateTimePattern.rmatch value := by
      by_contra hno
      unfold isDateTime at h
      rw [Bool.not_eq_true] at hno
      rw [hno] at h
      cases h
    obtain ⟨t, ht⟩ := dateTime_rmatch_iff.mp hmatch
    exact ⟨t, ht, ht.isDateTime_iff.mp h⟩
  · rintro ⟨t, ht, hvalid⟩
    exact ht.isDateTime_iff.mpr hvalid

/-- What a date-time without a leap second stands for, the days counted one by one. -/
def Names (value : JSString) (instant : ℚ) : Prop :=
  ∃ (t : DateTime) (days : ℤ), t.IsText value ∧ t.second ≠ 60 ∧ t.date.Counted days ∧
    instant = t.instant days

theorem Names.ms {value : JSString} {instant : ℚ} {leapSeconds : Bool} (h : Names value instant)
    (hvalue : isDateTime value leapSeconds) : dateTimeMs value = some ⌊instant⌋ := by
  obtain ⟨t, days, ht, hsecond, hdays, rfl⟩ := h
  have hvalid := ht.isDateTime_iff.mp hvalue
  exact ht.dateTimeMs_eq ⟨hvalid.date, fun h => absurd h hsecond⟩ hdays

theorem exists_names {t : DateTime} {value : JSString} {leapSeconds : Bool} (ht : t.IsText value)
    (hvalue : isDateTime value leapSeconds) (hsecond : t.second ≠ 60) :
    ∃ instant, Names value instant := by
  have hvalid := ht.isDateTime_iff.mp hvalue
  exact ⟨_, t, _, ht, hsecond, (Date.counted_iff ⟨ht.month, ht.day.1, hvalid.date⟩).mpr rfl, rfl⟩

/-- The date-times of RFC 3339 are read exactly, and the arithmetic of days is that of the calendar.
-/
theorem dateTimes_are_exact :
    (∀ value leapSeconds, isDateTime value leapSeconds ↔
      ∃ t : DateTime, t.IsText value ∧ t.Valid leapSeconds) ∧
    (∀ value leapSeconds (t : DateTime), isDateTime value leapSeconds → t.IsText value →
      t.second ≠ 60 → ∃ instant, Names value instant) ∧
    (∀ value leapSeconds instant, isDateTime value leapSeconds → Names value instant →
      dateTimeMs value = some ⌊instant⌋) ∧
    (∀ value value' instant instant', isDateTime value true → isDateTime value' true →
      Names value instant → Names value' instant' →
      (instant = instant' → dateTimeMs value = dateTimeMs value') ∧
      (⌊instant⌋ < ⌊instant'⌋ ↔ ∃ ms ∈ dateTimeMs value, ∃ ms' ∈ dateTimeMs value', ms < ms')) ∧
    (∀ date : Date, date.Exists → ∀ n,
      date.Counted n ↔ n = daysFromCivil date.year date.month date.day) := by
  refine ⟨fun _ _ => isDateTime_iff, fun _ _ _ hvalue ht hsecond => exists_names ht hvalue hsecond,
    fun _ _ _ hvalue h => h.ms hvalue, fun value value' instant instant' hvalue hvalue' h h' => ?_,
    fun _ h _ => Date.counted_iff h⟩
  rw [h.ms hvalue, h'.ms hvalue']
  constructor
  · rintro rfl
    rfl
  · simp

example : dateTimeMs (js "2024-02-29T23:59:59.1239-00:30") = some 1709252999123 := by
  decide +kernel

end Nifra.Schema
