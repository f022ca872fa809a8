import SolidTrace.Lib.Calendar
import SolidTrace.Lib.Digits
import SolidTrace.LogPages.ScanLogs

/-!
# Cursors

A page's cursor, opaque to clients: a Log's position, and how many Logs the Query's take has left to
give. A string is the list of its bytes, each as a character.
-/

namespace SolidTrace.LogPages

section Times

abbrev Text := List Char

/-- A number in so many digits. -/
def pad (width : ℕ) (n : ℤ) : Text := (Digits.fixed 10 width n.toNat).map Digits.char

/-- `.999999999`: the nanoseconds of a second, without trailing zeros, if there are any. -/
def formatFraction (nanos : ℤ) : Text :=
  if nanos = 0 then []
  else '.' :: (Digits.trimmed (Digits.fixed 10 9 nanos.toNat)).map Digits.char

/-- A time, in UTC, in the layout RFC3339Nano. -/
def formatTime (t : ℤ) : Text :=
  let seconds := t / 1000000000
  let date := Calendar.ofDay (seconds / 86400)
  let clock := seconds % 86400
  pad 4 date.year ++ '-' :: (pad 2 date.month ++ '-' :: (pad 2 date.day ++ 'T' ::
    (pad 2 (clock / 3600) ++ ':' :: (pad 2 (clock / 60 % 60) ++ ':' :: (pad 2 (clock % 60) ++
      (formatFraction (t % 1000000000) ++ ['Z']))))))

/-- A number of digits alone, within bounds. -/
def parseUint (text : Text) (low high : ℤ) : Option ℤ := do
  let n : ℤ := Digits.value 10 (← Digits.read Digits.decimal text)
  if low ≤ n ∧ n ≤ high then some n else none

def isDigit (c : Char) : Bool := (Digits.decimal c).isSome

/-- Nanoseconds from a fraction's digits. Those after the ninth are left out. -/
def parseNanoseconds (digits : Text) : ℤ :=
  let ds := (digits.take 9).filterMap Digits.decimal
  Digits.value 10 ds * 10 ^ (9 - ds.length)

/-- The fraction of a second that a text starts with, if it does, and what follows. -/
def parseFraction : Text → ℤ × Text
  | '.' :: c :: rest =>
    if isDigit c then
      (parseNanoseconds ((c :: rest).takeWhile isDigit), (c :: rest).dropWhile isDigit)
    else (0, '.' :: c :: rest)
  | text => (0, text)

/-- The seconds a time zone is ahead of UTC. -/
def parseZone : Text → Option ℤ
  | ['Z'] => some 0
  | [sign, h₁, h₂, ':', m₁, m₂] => do
    let hours ← parseUint [h₁, h₂] 0 23
    let minutes ← parseUint [m₁, m₂] 0 59
    if sign = '+' then some ((hours * 60 + minutes) * 60)
    else if sign = '-' then some (-((hours * 60 + minutes) * 60))
    else none
  | _ => none

/-- A time from the parts of its text. -/
def parseParts (year month day hour minute second rest : Text) : Option ℤ := do
  let year ← parseUint year 0 9999
  let month ← parseUint month 1 12
  let day ← parseUint day 1 (Calendar.daysIn year month)
  let hour ← parseUint hour 0 23
  let minute ← parseUint minute 0 59
  let second ← parseUint second 0 59
  let (nanos, rest) := parseFraction rest
  let offset ← parseZone rest
  return (Calendar.toDay ⟨year, month, day⟩ * 86400 + hour * 3600 + minute * 60 + second - offset) *
    1000000000 + nanos

/-- A time in the layout RFC3339Nano. -/
def parseTime : Text → Option ℤ
  | y₁ :: y₂ :: y₃ :: y₄ :: '-' :: m₁ :: m₂ :: '-' :: d₁ :: d₂ :: 'T' :: h₁ :: h₂ :: ':' :: n₁ :: n₂ ::
      ':' :: s₁ :: s₂ :: rest =>
    parseParts [y₁, y₂, y₃, y₄] [m₁, m₂] [d₁, d₂] [h₁, h₂] [n₁, n₂] [s₁, s₂] rest
  | _ => none

/-- A number that is padded to its width is read, if it is in bounds. -/
theorem parseUint_pad {width : ℕ} {n low high : ℤ} (hn : 0 ≤ n) (hwidth : n < 10 ^ width)
    (hlow : low ≤ n) (hhigh : n ≤ high) : parseUint (pad width n) low high = some n := by
  have hread : Digits.read Digits.decimal (pad width n) = some (Digits.fixed 10 width n.toNat) :=
    Digits.read_map fun d hd => Digits.decimal_char (Digits.fixed_lt (by norm_num) _ _ d hd)
  have hvalue : Digits.value 10 (Digits.fixed 10 width n.toNat) = n.toNat := by
    apply Digits.value_fixed
    zify
    rwa [Int.toNat_of_nonneg hn]
  simp [parseUint, hread, hvalue, Int.toNat_of_nonneg hn, hlow, hhigh]

/-- A digit's character is a digit. -/
theorem isDigit_char {d : ℕ} (h : d < 10) : isDigit (Digits.char d) = true := by
  rw [isDigit, Digits.decimal_char h]
  rfl

/-- The digits of a text of digits are all of it. -/
theorem filterMap_decimal {ds : List ℕ} (h : ∀ d ∈ ds, d < 10) :
    (ds.map Digits.char).filterMap Digits.decimal = ds := by
  induction ds with
  | nil => rfl
  | cons d rest ih =>
    rw [List.map_cons, List.filterMap_cons_some (Digits.decimal_char (h d (.head _))),
      ih fun d hd => h d (.tail _ hd)]

/-- A fraction that is written is read. -/
theorem parseFraction_formatFraction {nanos : ℤ} (hlow : 0 ≤ nanos) (hhigh : nanos < 1000000000) :
    parseFraction (formatFraction nanos ++ ['Z']) = (nanos, ['Z']) := by
  unfold formatFraction
  split
  next h => rw [h]; rfl
  next h =>
    have hvalue : Digits.value 10 (Digits.fixed 10 9 nanos.toNat) = nanos.toNat :=
      Digits.value_fixed (by omega)
    have htrimmed := Digits.value_trimmed 10 (Digits.fixed 10 9 nanos.toNat)
    have hlt : ∀ d ∈ Digits.trimmed (Digits.fixed 10 9 nanos.toNat), d < 10 := fun d hd =>
      Digits.fixed_lt (by norm_num) 9 _ d ((Digits.trimmed_prefix _).subset hd)
    have hlength : (Digits.trimmed (Digits.fixed 10 9 nanos.toNat)).length ≤ 9 := by
      have := (Digits.trimmed_prefix (Digits.fixed 10 9 nanos.toNat)).length_le
      rwa [Digits.length_fixed] at this
    rw [hvalue, Digits.length_fixed] at htrimmed
    generalize Digits.trimmed (Digits.fixed 10 9 nanos.toNat) = ds at *
    cases ds with
    | nil =>
      simp [Digits.value] at htrimmed
      omega
    | cons d rest =>
      have hall : ∀ c ∈ (d :: rest).map Digits.char, isDigit c = true := by
        intro c hc
        obtain ⟨d, hd, rfl⟩ := List.mem_map.1 hc
        exact isDigit_char (hlt d hd)
      have hdigits : parseNanoseconds ((d :: rest).map Digits.char) = nanos := by
        simp only [parseNanoseconds]
        rw [List.take_of_length_le (by simpa using hlength), filterMap_decimal hlt]
        have := congrArg (Nat.cast : ℕ → ℤ) htrimmed
        push_cast at this
        rw [this]
        omega
      simp only [List.map_cons, List.cons_append, parseFraction, isDigit_char (hlt d (.head _)), if_true]
      have htake := @List.takeWhile_append_of_pos _ _ _ ['Z'] hall
      have hdrop := @List.dropWhile_append_of_pos _ _ _ ['Z'] hall
      simp only [List.map_cons, List.cons_append] at htake hdrop hdigits
      rw [htake, hdrop]
      have hz : isDigit 'Z' = false := by decide
      simp [hz, hdigits]

/-- A padded number is as long as its width. -/
theorem length_pad (width : ℕ) (n : ℤ) : (pad width n).length = width := by
  simp [pad]

/-- A time's parts are read at their places, as each has its length. -/
theorem parseTime_parts {year month day hour minute second rest : Text} (hyear : year.length = 4)
    (hmonth : month.length = 2) (hday : day.length = 2) (hhour : hour.length = 2)
    (hminute : minute.length = 2) (hsecond : second.length = 2) :
    parseTime (year ++ '-' :: (month ++ '-' :: (day ++ 'T' :: (hour ++ ':' :: (minute ++ ':' ::
      (second ++ rest)))))) = parseParts year month day hour minute second rest := by
  obtain ⟨y₁, y₂, y₃, y₄, rfl⟩ : ∃ a b c d, year = [a, b, c, d] := by
    match year, hyear with
    | [a, b, c, d], _ => exact ⟨a, b, c, d, rfl⟩
  obtain ⟨m₁, m₂, rfl⟩ := List.length_eq_two.1 hmonth
  obtain ⟨d₁, d₂, rfl⟩ := List.length_eq_two.1 hday
  obtain ⟨h₁, h₂, rfl⟩ := List.length_eq_two.1 hhour
  obtain ⟨n₁, n₂, rfl⟩ := List.length_eq_two.1 hminute
  obtain ⟨s₁, s₂, rfl⟩ := List.length_eq_two.1 hsecond
  rfl

/-- The times of the years from 0 to 9999, which RFC 3339 can write. -/
def inYears (t : ℤ) : Prop := -62167219200000000000 ≤ t ∧ t < 253402300800000000000

/-- A time that is written is read. -/
theorem parseTime_formatTime {t : ℤ} (h : inYears t) : parseTime (formatTime t) = some t := by
  unfold inYears at h
  have hday := Calendar.toDay_ofDay (t / 1000000000 / 86400)
  obtain ⟨hmonth, hmonth', hd, hd'⟩ := Calendar.ofDay_valid (t / 1000000000 / 86400)
  obtain ⟨hyear, hyear'⟩ := @Calendar.ofDay_year (t / 1000000000 / 86400) (by omega) (by omega)
  have hle := Calendar.daysIn_le (Calendar.ofDay (t / 1000000000 / 86400)).year
    (Calendar.ofDay (t / 1000000000 / 86400)).month
  unfold formatTime
  simp only
  rw [parseTime_parts (length_pad _ _) (length_pad _ _) (length_pad _ _) (length_pad _ _)
    (length_pad _ _) (length_pad _ _)]
  generalize Calendar.ofDay (t / 1000000000 / 86400) = date at *
  generalize hclock : t / 1000000000 % 86400 = clock at *
  have hclock' : 0 ≤ clock ∧ clock < 86400 := by omega
  unfold parseParts
  rw [parseUint_pad hyear (by omega) hyear hyear']
  simp only [Option.bind_eq_bind, Option.bind_some]
  rw [parseUint_pad (by omega) (by omega) hmonth hmonth']
  simp only [Option.bind_some]
  rw [parseUint_pad (by omega) (by omega) hd hd']
  simp only [Option.bind_some]
  rw [parseUint_pad (by omega) (by omega) (by omega) (by omega)]
  simp only [Option.bind_some]
  rw [parseUint_pad (by omega) (by omega) (by omega) (by omega)]
  simp only [Option.bind_some]
  rw [parseUint_pad (by omega) (by omega) (by omega) (by omega)]
  simp only [Option.bind_some]
  rw [parseFraction_formatFraction (by omega) (by omega)]
  simp only [parseZone, Option.bind_some, Option.pure_def, Option.some.injEq, hday]
  omega

end Times

section Ids

/-- An id as `xxxxxxxx-xxxx-xxxx-xxxx-xxxxxxxxxxxx`. -/
def uuidString (id : UUID) : Text :=
  let digits := (Digits.fixed 16 32 id.toNat).map Digits.char
  digits.take 8 ++ '-' :: ((digits.drop 8).take 4 ++ '-' :: ((digits.drop 12).take 4 ++ '-' ::
    ((digits.drop 16).take 4 ++ '-' :: digits.drop 20)))

/-- An id from its hexadecimal digits. -/
def parseHex (text : Text) : Option UUID :=
  (Digits.read Digits.hexadecimal text).map fun ds => BitVec.ofNat 128 (Digits.value 16 ds)

/-- An id from its digits and the hyphens between them. -/
def parseHyphenated (text : Text) : Option UUID :=
  if text[8]? = some '-' ∧ text[13]? = some '-' ∧ text[18]? = some '-' ∧ text[23]? = some '-' then
    parseHex (text.take 8 ++ ((text.drop 9).take 4 ++ ((text.drop 14).take 4 ++
      ((text.drop 19).take 4 ++ (text.drop 24).take 12))))
  else none

/-- An id: its digits with hyphens, also in braces or after `urn:uuid:`, or without. -/
def parseUUID (text : Text) : Option UUID :=
  if text.length = 36 then parseHyphenated text
  else if text.length = 45 then
    if (text.take 9).map Char.toLower = "urn:uuid:".toList then parseHyphenated (text.drop 9) else none
  else if text.length = 38 then parseHyphenated (text.drop 1)
  else if text.length = 32 then parseHex text
  else none

/-- Digits with hyphens between them, without the hyphens. -/
theorem hyphenated_digits {a b c d e : Text} (ha : a.length = 8) (hb : b.length = 4)
    (hc : c.length = 4) (hd : d.length = 4) (he : e.length = 12) :
    parseUUID (a ++ '-' :: (b ++ '-' :: (c ++ '-' :: (d ++ '-' :: e)))) =
      parseHex (a ++ (b ++ (c ++ (d ++ e)))) := by
  have hlength : (a ++ '-' :: (b ++ '-' :: (c ++ '-' :: (d ++ '-' :: e)))).length = 36 := by
    simp [ha, hb, hc, hd, he]
  rw [parseUUID, if_pos hlength, parseHyphenated, if_pos]
  · simp [List.drop_append, List.drop_eq_nil_of_le, List.take_of_length_le, ha, hb, hc, hd, he]
  · simp [List.getElem?_append, ha, hb, hc, hd]

/-- An id that is written is read. -/
theorem parseUUID_uuidString (id : UUID) : parseUUID (uuidString id) = some id := by
  have hread : Digits.read Digits.hexadecimal ((Digits.fixed 16 32 id.toNat).map Digits.char) =
      some (Digits.fixed 16 32 id.toNat) :=
    Digits.read_map fun d hd => Digits.hexadecimal_char (Digits.fixed_lt (by norm_num) _ _ d hd)
  have hvalue : Digits.value 16 (Digits.fixed 16 32 id.toNat) = id.toNat := by
    apply Digits.value_fixed
    exact lt_of_lt_of_eq id.isLt (by norm_num)
  have hlength : ((Digits.fixed 16 32 id.toNat).map Digits.char).length = 32 := by simp
  unfold uuidString
  simp only
  generalize (Digits.fixed 16 32 id.toNat).map Digits.char = text at hread hlength ⊢
  rw [hyphenated_digits (by simp [hlength]) (by simp [hlength]) (by simp [hlength])
    (by simp [hlength]) (by simp [hlength])]
  have hjoin : text.take 8 ++ ((text.drop 8).take 4 ++ ((text.drop 12).take 4 ++
      ((text.drop 16).take 4 ++ text.drop 20))) = text := by
    rw [show text.drop 20 = (text.drop 16).drop 4 by simp, List.take_append_drop,
      show text.drop 16 = (text.drop 12).drop 4 by simp, List.take_append_drop,
      show text.drop 12 = (text.drop 8).drop 4 by simp, List.take_append_drop, List.take_append_drop]
  rw [hjoin, parseHex, hread, Option.map_some, hvalue, BitVec.ofNat_toNat, BitVec.setWidth_eq]

end Ids

section Cursors

/-- A number in decimal. -/
def itoa (n : ℤ) : Text :=
  if n < 0 then '-' :: (Digits.least 10 (-n).toNat).map Digits.char
  else (Digits.least 10 n.toNat).map Digits.char

/-- A number of decimal digits, at least one. -/
def parseDecimal (text : Text) : Option ℤ :=
  if text.isEmpty then none
  else (Digits.read Digits.decimal text).map fun ds => (Digits.value 10 ds : ℤ)

/-- A decimal number of either sign, in 64 bits. -/
def atoi (text : Text) : Option ℤ := do
  let n ← match text with
    | '-' :: rest => (parseDecimal rest).map fun n => -n
    | '+' :: rest => parseDecimal rest
    | _ => parseDecimal text
  if -9223372036854775808 ≤ n ∧ n < 9223372036854775808 then some n else none

/-- A cursor is a Log's position, and how many Logs the Query's take has left to give (-1 for
none). -/
def encodeCursor (pos : LogPosition) (left : ℤ) : Text :=
  let text := formatTime pos.time ++ '|' :: uuidString pos.id
  let text := if 0 ≤ left then text ++ '|' :: itoa left else text
  Digits.encode64 (text.map Char.toNat)

def decodeCursor (cursor : Text) : Option (LogPosition × ℤ) := do
  let raw ← Digits.decode64 cursor
  match (raw.map Char.ofNat).splitOn '|' with
  | [time, id] => return (⟨← parseTime time, ← parseUUID id⟩, -1)
  | [time, id, left] =>
    let pos := ⟨← parseTime time, ← parseUUID id⟩
    let left ← atoi left
    if left < 0 then none else return (pos, left)
  | _ => none

/-- A character that no digit is written as. -/
theorem char_ne_of_decimal {c : Char} {d : ℕ} (hc : Digits.decimal c = none) (hd : d < 10) :
    Digits.char d ≠ c := by
  rintro rfl
  rw [Digits.decimal_char hd] at hc
  cases hc

/-- A count that fits is read as it was written. -/
theorem atoi_itoa {n : ℤ} (hlow : 0 ≤ n) (hhigh : n < 9223372036854775808) : atoi (itoa n) = some n := by
  have hlt := @Digits.least_lt 10 (by norm_num) n.toNat
  have hne := Digits.least_ne_nil 10 n.toNat
  have hread : Digits.read Digits.decimal ((Digits.least 10 n.toNat).map Digits.char) =
      some (Digits.least 10 n.toNat) := Digits.read_map fun d hd => Digits.decimal_char (hlt d hd)
  have hvalue := Digits.value_least 10 n.toNat
  unfold itoa
  rw [if_neg (by omega)]
  generalize Digits.least 10 n.toNat = ds at *
  cases ds with
  | nil => exact absurd rfl hne
  | cons d rest =>
    have hd := hlt d (.head _)
    have hminus : Digits.char d ≠ '-' := char_ne_of_decimal (by decide) hd
    have hplus : Digits.char d ≠ '+' := char_ne_of_decimal (by decide) hd
    have hparse : parseDecimal ((d :: rest).map Digits.char) = some n := by
      rw [parseDecimal, hread]
      simp [hvalue, Int.toNat_of_nonneg hlow]
    unfold atoi
    split
    next heq =>
      simp only [List.map_cons, List.cons.injEq] at heq
      exact absurd heq.1 hminus
    next heq =>
      simp only [List.map_cons, List.cons.injEq] at heq
      exact absurd heq.1 hplus
    · rw [hparse]
      simp only [Option.bind_eq_bind, Option.bind_some]
      rw [if_pos (by omega)]

/-- A byte that is not the one between a cursor's parts. -/
def plain (c : Char) : Prop := c ≠ '|' ∧ c.toNat < 256

instance (c : Char) : Decidable (plain c) := inferInstanceAs (Decidable (_ ∧ _))

/-- A hexadecimal digit is a plain byte. -/
theorem char_plain {d : ℕ} (h : d < 16) : plain (Digits.char d) := by
  interval_cases d <;> decide

/-- A text of hexadecimal digits is plain. -/
theorem map_char_plain {ds : List ℕ} (h : ∀ d ∈ ds, d < 16) : ∀ c ∈ ds.map Digits.char, plain c := by
  intro c hc
  obtain ⟨d, hd, rfl⟩ := List.mem_map.1 hc
  exact char_plain (h d hd)

/-- A padded number is plain. -/
theorem pad_plain (width : ℕ) (n : ℤ) : ∀ c ∈ pad width n, plain c :=
  map_char_plain fun d hd => (Digits.fixed_lt (by norm_num) width _ d hd).trans (by norm_num)

/-- The fraction of a second is plain. -/
theorem formatFraction_plain (nanos : ℤ) : ∀ c ∈ formatFraction nanos, plain c := by
  unfold formatFraction
  split
  · simp
  · rw [List.forall_mem_cons]
    refine ⟨by decide, map_char_plain fun d hd => ?_⟩
    exact (Digits.fixed_lt (by norm_num) 9 _ d ((Digits.trimmed_prefix _).subset hd)).trans
      (by norm_num)

/-- A time is plain. -/
theorem formatTime_plain (t : ℤ) : ∀ c ∈ formatTime t, plain c := by
  simp only [formatTime, List.forall_mem_append, List.forall_mem_cons]
  exact ⟨pad_plain _ _, by decide, pad_plain _ _, by decide, pad_plain _ _, by decide, pad_plain _ _,
    by decide, pad_plain _ _, by decide, pad_plain _ _, formatFraction_plain _, by decide, by simp⟩

/-- An id is plain. -/
theorem uuidString_plain (id : UUID) : ∀ c ∈ uuidString id, plain c := by
  have hdigits : ∀ c ∈ (Digits.fixed 16 32 id.toNat).map Digits.char, plain c :=
    map_char_plain fun d hd => Digits.fixed_lt (by norm_num) 32 _ d hd
  simp only [uuidString, List.forall_mem_append, List.forall_mem_cons]
  have htake := fun n c h => hdigits c (List.mem_of_mem_take (i := n) h)
  have hdrop := fun n c h => hdigits c (List.mem_of_mem_drop (i := n) h)
  exact ⟨htake 8, by decide, fun c h => hdrop 8 c (List.mem_of_mem_take h), by decide,
    fun c h => hdrop 12 c (List.mem_of_mem_take h), by decide,
    fun c h => hdrop 16 c (List.mem_of_mem_take h), by decide, hdrop 20⟩

/-- A count is plain. -/
theorem itoa_plain {n : ℤ} (h : 0 ≤ n) : ∀ c ∈ itoa n, plain c := by
  unfold itoa
  rw [if_neg (by omega)]
  exact map_char_plain fun d hd => (Digits.least_lt (by norm_num) _ d hd).trans (by norm_num)

/-- A text of bytes in base 64 is read back. -/
theorem decode64_text {text : Text} (h : ∀ c ∈ text, c.toNat < 256) :
    (Digits.decode64 (Digits.encode64 (text.map Char.toNat))).map (List.map Char.ofNat) = some text := by
  rw [Digits.decode64_encode64 fun b hb => by
    obtain ⟨c, hc, rfl⟩ := List.mem_map.1 hb
    exact h c hc]
  simp [Function.comp_def]

/-- The parts of a text with bars between them. -/
theorem splitOn_bars {parts : List Text} (h : ∀ part ∈ parts, ∀ c ∈ part, plain c) (hne : parts ≠ []) :
    (['|'].intercalate parts).splitOn '|' = parts :=
  List.splitOn_intercalate '|' (fun part hpart hbar => (h part hpart _ hbar).1 rfl) hne

/-- A cursor of plain parts is all bytes. -/
theorem bars_lt {parts : List Text} (h : ∀ part ∈ parts, ∀ c ∈ part, plain c) :
    ∀ c ∈ ['|'].intercalate parts, c.toNat < 256 := by
  induction parts with
  | nil => simp [List.intercalate_nil]
  | cons part rest ih =>
    have hpart : ∀ c ∈ part, c.toNat < 256 := fun c hc => (h part (.head _) c hc).2
    have hrest := ih fun part hpart => h part (.tail _ hpart)
    cases rest with
    | nil => simpa [List.intercalate_singleton] using hpart
    | cons next rest =>
      simp only [List.intercalate_cons_cons, List.forall_mem_append]
      exact ⟨⟨hpart, by simp⟩, hrest⟩

/-- A cursor that is given is understood. -/
theorem decodeCursor_encodeCursor {pos : LogPosition} {left : ℤ} (htime : inYears pos.time)
    (hlow : -1 ≤ left) (hhigh : left < 9223372036854775808) :
    decodeCursor (encodeCursor pos left) = some (pos, left) := by
  have hdecode : ∀ parts : List Text, (∀ part ∈ parts, ∀ c ∈ part, plain c) → parts ≠ [] →
      ∃ raw, Digits.decode64 (Digits.encode64 ((['|'].intercalate parts).map Char.toNat)) = some raw ∧
        (raw.map Char.ofNat).splitOn '|' = parts := by
    intro parts hparts hne
    obtain ⟨raw, hraw, htext⟩ := Option.map_eq_some_iff.1 (decode64_text (bars_lt hparts))
    exact ⟨raw, hraw, by rw [htext, splitOn_bars hparts hne]⟩
  unfold encodeCursor
  simp only
  split
  next hleft =>
    obtain ⟨raw, hraw, hsplit⟩ := hdecode [formatTime pos.time, uuidString pos.id, itoa left]
      (by simpa using ⟨formatTime_plain _, uuidString_plain _, itoa_plain hleft⟩) (by simp)
    rw [show formatTime pos.time ++ '|' :: uuidString pos.id ++ '|' :: itoa left =
      ['|'].intercalate [formatTime pos.time, uuidString pos.id, itoa left] by simp [List.intercalate]]
    simp only [decodeCursor, hraw, Option.bind_eq_bind, Option.bind_some, hsplit,
      parseTime_formatTime htime, parseUUID_uuidString, atoi_itoa hleft hhigh]
    rw [if_neg (by omega)]
    rfl
  next hleft =>
    obtain ⟨raw, hraw, hsplit⟩ := hdecode [formatTime pos.time, uuidString pos.id]
      (by simpa using ⟨formatTime_plain _, uuidString_plain _⟩) (by simp)
    rw [show formatTime pos.time ++ '|' :: uuidString pos.id =
      ['|'].intercalate [formatTime pos.time, uuidString pos.id] by simp [List.intercalate]]
    simp only [decodeCursor, hraw, Option.bind_eq_bind, Option.bind_some, hsplit,
      parseTime_formatTime htime, parseUUID_uuidString]
    obtain rfl : left = -1 := by omega
    rfl

end Cursors

end SolidTrace.LogPages
