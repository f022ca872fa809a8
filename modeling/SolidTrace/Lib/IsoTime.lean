import SolidTrace.Lib.Calendar
import SolidTrace.Lib.Digits

/-!
# ISO 8601 times

Times in UTC to the millisecond, as `2026-10-03T09:00:00.000Z`. A year of other than four digits is
written with a sign, and six. What is written is read.
-/

namespace IsoTime

section Fields

/-- A number in so many digits. -/
def field (width : ℕ) (n : ℤ) : List Char := (Digits.fixed 10 width n.toNat).map Digits.char

/-- The number that so many digits start a text with, and what follows. -/
def readField (width : ℕ) (text : List Char) : Option (ℤ × List Char) := do
  let ds ← Digits.read Digits.decimal (text.take width)
  if ds.length = width then some (Digits.value 10 ds, text.drop width) else none

/-- What follows a character. -/
def readChar (c : Char) : List Char → Option (List Char)
  | d :: rest => if d = c then some rest else none
  | [] => none

/-- A character that is expected is read. -/
@[simp]
theorem readChar_cons (c : Char) (rest : List Char) : readChar c (c :: rest) = some rest :=
  if_pos rfl

/-- A field written at its width is read back, whatever follows. -/
theorem readField_field {width : ℕ} {n : ℤ} (hn : 0 ≤ n) (hwidth : n < 10 ^ width) (rest : List Char) :
    readField width (field width n ++ rest) = some (n, rest) := by
  have hread : Digits.read Digits.decimal (field width n) = some (Digits.fixed 10 width n.toNat) :=
    Digits.read_map fun d hd => Digits.decimal_char (Digits.fixed_lt (by norm_num) _ _ d hd)
  have hvalue : Digits.value 10 (Digits.fixed 10 width n.toNat) = n.toNat := by
    apply Digits.value_fixed
    zify
    rwa [Int.toNat_of_nonneg hn]
  have hlength : (field width n).length = width := by simp [field]
  have htake : (field width n ++ rest).take width = field width n := List.take_left' hlength
  have hdrop : (field width n ++ rest).drop width = rest := List.drop_left' hlength
  simp [readField, htake, hdrop, hread, hvalue, Int.toNat_of_nonneg hn]

/-- A digit is no sign. -/
theorem char_unsigned {d : ℕ} (h : d < 10) : Digits.char d ≠ '-' ∧ Digits.char d ≠ '+' := by
  interval_cases d <;> decide

/-- A number starts with no sign. -/
theorem field_unsigned {width : ℕ} (hwidth : width ≠ 0) (n : ℤ) :
    ∃ c cs, field width n = c :: cs ∧ c ≠ '-' ∧ c ≠ '+' := by
  have hlength := Digits.length_fixed 10 width n.toNat
  have hlt := Digits.fixed_lt (by norm_num : 0 < 10) width n.toNat
  unfold field
  generalize Digits.fixed 10 width n.toNat = ds at hlength hlt
  cases ds with
  | nil => exact absurd hlength.symm hwidth
  | cons d ds => exact ⟨_, _, rfl, char_unsigned (hlt d (.head _))⟩

end Fields

section Times

def writeYear (year : ℤ) : List Char :=
  if 0 ≤ year ∧ year ≤ 9999 then field 4 year
  else if year < 0 then '-' :: field 6 (-year)
  else '+' :: field 6 year

def readYear : List Char → Option (ℤ × List Char)
  | '-' :: rest => do
    let (year, rest) ← readField 6 rest
    return (-year, rest)
  | '+' :: rest => readField 6 rest
  | text => readField 4 text

/-- A time, in milliseconds since 1970. -/
def write (t : ℤ) : List Char :=
  let date := Calendar.ofDay (t / 86400000)
  let clock := t % 86400000
  writeYear date.year ++ '-' :: (field 2 date.month ++ '-' :: (field 2 date.day ++ 'T' ::
    (field 2 (clock / 3600000) ++ ':' :: (field 2 (clock / 60000 % 60) ++ ':' ::
      (field 2 (clock / 1000 % 60) ++ '.' :: (field 3 (clock % 1000) ++ ['Z']))))))

def read (text : List Char) : Option ℤ := do
  let (year, text) ← readYear text
  let (month, text) ← readField 2 (← readChar '-' text)
  let (day, text) ← readField 2 (← readChar '-' text)
  let (hour, text) ← readField 2 (← readChar 'T' text)
  let (minute, text) ← readField 2 (← readChar ':' text)
  let (second, text) ← readField 2 (← readChar ':' text)
  let (milli, text) ← readField 3 (← readChar '.' text)
  if text = ['Z'] then
    some (Calendar.toDay ⟨year, month, day⟩ * 86400000 + hour * 3600000 + minute * 60000 +
      second * 1000 + milli)
  else none

/-- A year of four digits, or of six with a sign, is read back. -/
theorem readYear_writeYear {year : ℤ} (hlow : -999999 ≤ year) (hhigh : year ≤ 999999)
    (rest : List Char) : readYear (writeYear year ++ rest) = some (year, rest) := by
  unfold writeYear
  split
  next h =>
    obtain ⟨d, ds, hfield, hminus, hplus⟩ := field_unsigned (by norm_num : 4 ≠ 0) year
    have hread := @readField_field 4 year h.1 (by omega) rest
    rw [hfield, List.cons_append] at hread ⊢
    rw [readYear]
    · exact hread
    · intro rest' h
      exact hminus (List.cons.inj h).1
    · intro rest' h
      exact hplus (List.cons.inj h).1
  · split
    · rw [List.cons_append, readYear, readField_field (by omega) (by omega)]
      simp
    · rw [List.cons_append, readYear, readField_field (by omega) (by omega)]

/-- A time that is written is read. -/
theorem read_write {t : ℤ} (hlow : -8640000000000000 ≤ t) (hhigh : t ≤ 8640000000000000) :
    read (write t) = some t := by
  have hday := Calendar.toDay_ofDay (t / 86400000)
  obtain ⟨hmonth, hmonth', hd, hd'⟩ := Calendar.ofDay_valid (t / 86400000)
  obtain ⟨hyear, hyear'⟩ := @Calendar.ofDay_year_within (t / 86400000) (by omega) (by omega)
  have hle := Calendar.daysIn_le (Calendar.ofDay (t / 86400000)).year
    (Calendar.ofDay (t / 86400000)).month
  unfold write read
  simp only
  generalize Calendar.ofDay (t / 86400000) = date at *
  generalize hclock : t % 86400000 = clock at *
  have hclock' : 0 ≤ clock ∧ clock < 86400000 := by omega
  simp only [readYear_writeYear hyear hyear', readChar_cons, Option.bind_eq_bind, Option.bind_some]
  rw [readField_field (by omega) (by omega)]
  simp only [readChar_cons, Option.bind_some]
  rw [readField_field (by omega) (by omega)]
  simp only [readChar_cons, Option.bind_some]
  rw [readField_field (by omega) (by omega)]
  simp only [readChar_cons, Option.bind_some]
  rw [readField_field (by omega) (by omega)]
  simp only [readChar_cons, Option.bind_some]
  rw [readField_field (by omega) (by omega)]
  simp only [readChar_cons, Option.bind_some]
  rw [readField_field (by omega) (by omega)]
  simp only [Option.bind_some, ↓reduceIte, Option.some.injEq, hday]
  omega

end Times

end IsoTime
