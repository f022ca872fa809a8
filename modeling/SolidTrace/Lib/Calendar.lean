import Mathlib.Tactic.IntervalCases
import Mathlib.Tactic.Ring

/-!
# The Gregorian calendar

The date of a day counted from 1970, and the day of a date. Years are counted from March on, so that
a leap day is a year's last, and in eras of 400 years, which are all alike.
-/

namespace Calendar

/-- A date. -/
structure Date where
  year : ℤ
  month : ℤ
  day : ℤ
deriving DecidableEq, Repr

/-- The days of an era before one of its years. -/
def daysBeforeYear (yearOfEra : ℤ) : ℤ := 365 * yearOfEra + yearOfEra / 4 - yearOfEra / 100

/-- The days of a year from March on before one of its months. -/
def daysBeforeMonth (monthFromMarch : ℤ) : ℤ := (153 * monthFromMarch + 2) / 5

/-- How many of four parts have passed, of which the last is a day longer. -/
def quarter (days length : ℤ) : ℤ := days / length - days / length / 4

/-- The year of a day of an era. -/
def yearOfDay (dayOfEra : ℤ) : ℤ :=
  let century := quarter dayOfEra 36524
  let dayOfCentury := dayOfEra - 36524 * century
  let dayOfFour := dayOfCentury % 1461
  100 * century + 4 * (dayOfCentury / 1461) + quarter dayOfFour 365

/-- The date of a day of a year from March on. -/
def ofMarch (year dayOfYear : ℤ) : Date :=
  let monthFromMarch := (5 * dayOfYear + 2) / 153
  let day := dayOfYear - daysBeforeMonth monthFromMarch + 1
  if monthFromMarch < 10 then ⟨year, monthFromMarch + 3, day⟩
  else ⟨year + 1, monthFromMarch - 9, day⟩

/-- The date of a day from 1970 on. -/
def ofDay (n : ℤ) : Date :=
  let z := n + 719468
  let yearOfEra := yearOfDay (z % 146097)
  ofMarch (z / 146097 * 400 + yearOfEra) (z % 146097 - daysBeforeYear yearOfEra)

/-- The day, from 1970 on, of a date. -/
def toDay (date : Date) : ℤ :=
  let year := if date.month ≤ 2 then date.year - 1 else date.year
  let monthFromMarch := if date.month ≤ 2 then date.month + 9 else date.month - 3
  year / 400 * 146097 + daysBeforeYear (year % 400) + daysBeforeMonth monthFromMarch + date.day - 1 -
    719468

def isLeap (year : ℤ) : Bool := year % 4 = 0 && (year % 100 ≠ 0 || year % 400 = 0)

/-- The days of a month. -/
def daysIn (year month : ℤ) : ℤ :=
  if month = 2 then if isLeap year then 29 else 28
  else if month = 4 ∨ month = 6 ∨ month = 9 ∨ month = 11 then 30
  else 31

/-- The days before a year of an era, by its century, its four years and its year of those. -/
theorem daysBeforeYear_eq {c q a : ℤ} (hq : 0 ≤ q) (hq' : q ≤ 24) (ha : 0 ≤ a) (ha' : a ≤ 3) :
    daysBeforeYear (100 * c + 4 * q + a) = 36524 * c + 1461 * q + 365 * a := by
  have hfour : (100 * c + 4 * q + a) / 4 = 25 * c + q := by omega
  have hcentury : (100 * c + 4 * q + a) / 100 = c := by omega
  rw [daysBeforeYear, hfour, hcentury]
  ring

/-- A day of an era is one of its year's. The last of a leap year, which ends in February, is its
365th after the first. -/
theorem yearOfDay_bounds {d : ℤ} (hd : 0 ≤ d ∧ d < 146097) :
    0 ≤ yearOfDay d ∧ yearOfDay d < 400 ∧ 0 ≤ d - daysBeforeYear (yearOfDay d) ∧
      d - daysBeforeYear (yearOfDay d) ≤ 365 ∧
      (d - daysBeforeYear (yearOfDay d) = 365 → isLeap (yearOfDay d + 1) = true) := by
  simp only [yearOfDay]
  generalize hc : quarter d 36524 = c
  have hcentury : 0 ≤ c ∧ c ≤ 3 ∧ 36524 * c ≤ d ∧ d ≤ 36524 * c + 36524 ∧
      (d = 36524 * c + 36524 → c = 3) := by
    unfold quarter at hc
    omega
  generalize hq : (d - 36524 * c) / 1461 = q
  generalize hr : (d - 36524 * c) % 1461 = r
  have hfour : 0 ≤ q ∧ q ≤ 24 ∧ 0 ≤ r ∧ r ≤ 1460 ∧ d = 36524 * c + 1461 * q + r ∧
      (r = 1460 → q = 24 → c = 3) := by
    omega
  generalize ha : quarter r 365 = a
  have hyear : 0 ≤ a ∧ a ≤ 3 ∧ 365 * a ≤ r ∧ r ≤ 365 * a + 365 ∧ (r = 365 * a + 365 → a = 3) := by
    unfold quarter at ha
    omega
  rw [daysBeforeYear_eq hfour.1 hfour.2.1 hyear.1 hyear.2.1]
  refine ⟨by omega, by omega, by omega, by omega, fun h => ?_⟩
  have ha3 : a = 3 := by omega
  have hq24 : q = 24 → c = 3 := by omega
  simp only [isLeap, Bool.and_eq_true, Bool.or_eq_true, decide_eq_true_eq]
  omega

/-- A day of a year from March on is one of its month's. -/
theorem monthOfDay_bounds {d m : ℤ} (hd : 0 ≤ d ∧ d ≤ 365) (hm : m = (5 * d + 2) / 153) :
    0 ≤ m ∧ m ≤ 11 ∧ daysBeforeMonth m ≤ d ∧ d < daysBeforeMonth (m + 1) := by
  unfold daysBeforeMonth
  omega

/-- A day of a year from March on, as a day from 1970 on. -/
theorem toDay_ofMarch {year d : ℤ} (hd : 0 ≤ d ∧ d ≤ 365) :
    toDay (ofMarch year d) = year / 400 * 146097 + daysBeforeYear (year % 400) + d - 719468 := by
  obtain ⟨hm, hm', -⟩ := monthOfDay_bounds hd rfl
  unfold ofMarch toDay
  simp only
  generalize (5 * d + 2) / 153 = m at hm hm'
  split
  · have hmonth : ¬m + 3 ≤ 2 := by omega
    simp only [if_neg hmonth, add_sub_cancel_right]
    ring
  · have hmonth : m - 9 ≤ 2 := by omega
    simp only [if_pos hmonth, add_sub_cancel_right, sub_add_cancel]
    ring

/-- The day of a day's date is that day. -/
theorem toDay_ofDay (n : ℤ) : toDay (ofDay n) = n := by
  have hera : 0 ≤ (n + 719468) % 146097 ∧ (n + 719468) % 146097 < 146097 := by omega
  obtain ⟨hy, hy', hd, hd', -⟩ := yearOfDay_bounds hera
  unfold ofDay
  simp only
  rw [toDay_ofMarch ⟨hd, hd'⟩]
  generalize yearOfDay ((n + 719468) % 146097) = y at hy hy'
  have hdiv : ((n + 719468) / 146097 * 400 + y) / 400 = (n + 719468) / 146097 := by omega
  have hmod : ((n + 719468) / 146097 * 400 + y) % 400 = y := by omega
  rw [hdiv, hmod]
  omega

/-- A day of a year from March on has a month and a day that the calendar has. -/
theorem ofMarch_valid {year d : ℤ} (hd : 0 ≤ d ∧ d ≤ 365)
    (hleap : d = 365 → isLeap (year + 1) = true) :
    1 ≤ (ofMarch year d).month ∧ (ofMarch year d).month ≤ 12 ∧ 1 ≤ (ofMarch year d).day ∧
      (ofMarch year d).day ≤ daysIn (ofMarch year d).year (ofMarch year d).month := by
  obtain ⟨hm, hm', hlow, hhigh⟩ := monthOfDay_bounds hd rfl
  unfold ofMarch
  simp only
  generalize (5 * d + 2) / 153 = m at hm hm' hlow hhigh
  unfold daysBeforeMonth at hlow hhigh ⊢
  rcases Int.lt_or_eq_of_le hm' with hlt | rfl
  · interval_cases m <;> simp [daysIn] <;> omega
  · -- February, the last month of the year.
    cases hyear : isLeap (year + 1) with
    | true =>
      simp [daysIn, hyear]
      omega
    | false =>
      have hne : d ≠ 365 := fun h => by simp [hleap h] at hyear
      simp [daysIn, hyear]
      omega

/-- A day's date is one of the calendar. -/
theorem ofDay_valid (n : ℤ) : 1 ≤ (ofDay n).month ∧ (ofDay n).month ≤ 12 ∧ 1 ≤ (ofDay n).day ∧
    (ofDay n).day ≤ daysIn (ofDay n).year (ofDay n).month := by
  have hera : 0 ≤ (n + 719468) % 146097 ∧ (n + 719468) % 146097 < 146097 := by omega
  obtain ⟨hy, hy', hd, hd', hleap⟩ := yearOfDay_bounds hera
  apply ofMarch_valid ⟨hd, hd'⟩
  intro h
  have := hleap h
  simp only [isLeap, Bool.and_eq_true, Bool.or_eq_true, decide_eq_true_eq] at this ⊢
  omega

/-- No month is longer than 31 days. -/
theorem daysIn_le (year month : ℤ) : daysIn year month ≤ 31 := by
  unfold daysIn
  split_ifs <;> omega

/-- The days before the last year of an era. -/
theorem daysBeforeYear_le {r : ℤ} (hr : 0 ≤ r) (hr' : r ≤ 399) : daysBeforeYear r ≤ 145731 := by
  unfold daysBeforeYear
  rcases Int.lt_or_eq_of_le hr' with hlt | rfl
  · omega
  · decide

/-- The days of the years from 0 to 9999 are those of four digits. -/
theorem ofDay_year {n : ℤ} (hlow : -719528 ≤ n) (hhigh : n < 2932897) :
    0 ≤ (ofDay n).year ∧ (ofDay n).year ≤ 9999 := by
  have hday := toDay_ofDay n
  obtain ⟨hm, hm', hd, hd'⟩ := ofDay_valid n
  have hle := daysIn_le (ofDay n).year (ofDay n).month
  generalize ofDay n = date at *
  unfold toDay at hday
  simp only at hday
  split at hday
  · unfold daysBeforeYear daysBeforeMonth at hday
    constructor <;> omega
  · have hyear := daysBeforeYear_le (r := date.year % 400) (by omega) (by omega)
    have hmonth : daysBeforeMonth (date.month - 3) ≤ 275 := by
      unfold daysBeforeMonth
      omega
    constructor
    · omega
    · unfold daysBeforeYear daysBeforeMonth at hday
      omega

/-- The days within 100 million of 1970 have years of six digits. -/
theorem ofDay_year_within {n : ℤ} (hlow : -100000000 ≤ n) (hhigh : n ≤ 100000000) :
    -999999 ≤ (ofDay n).year ∧ (ofDay n).year ≤ 999999 := by
  have hday := toDay_ofDay n
  obtain ⟨hm, hm', hd, hd'⟩ := ofDay_valid n
  have hle := daysIn_le (ofDay n).year (ofDay n).month
  generalize ofDay n = date at *
  unfold toDay daysBeforeYear daysBeforeMonth at hday
  simp only at hday
  constructor <;> split at hday <;> omega

end Calendar
