import SolidTrace.LogQuery.ExactPlaces

/-!
# Offsets and places in three languages

A place in a Query's text is a byte offset to the event store, an index of UTF-16 units to the browser
and an index of characters to Console. Between them goes its line and column, which each converts in its
own way.
-/

namespace SolidTrace.LogQuery

section Units

def isHighSurrogate (u : ℕ) : Bool := 0xD800 ≤ u && u ≤ 0xDBFF

def isLowSurrogate (u : ℕ) : Bool := 0xDC00 ≤ u && u ≤ 0xDFFF

/-- The code point of a surrogate pair. -/
def pair (high low : ℕ) : ℕ := 0x10000 + (high - 0xD800) * 0x400 + (low - 0xDC00)

/-- `String.prototype.codePointAt`, at the start of a text. -/
def codePoint : List ℕ → ℕ
  | [] => 0
  | [u] => u
  | u :: v :: _ => if isHighSurrogate u && isLowSurrogate v then pair u v else u

/-- A text's code points, as iterating over it gives them. -/
def codePoints : List ℕ → List ℕ
  | [] => []
  | [u] => [u]
  | u :: v :: rest =>
    if isHighSurrogate u && isLowSurrogate v then pair u v :: codePoints rest else u :: codePoints (v :: rest)

/-- `indexOf('\n', offset)`. -/
def indexOfNewline (text : List ℕ) (offset : ℕ) : Option ℕ :=
  ((text.drop offset).findIdx? (· = 10)).map (offset + ·)

end Units

namespace ProblemSpans

/-- Where a line starts, so many lines after an offset, if the text has that many. -/
def lineStart (text : List ℕ) : ℕ → ℕ → Option ℕ
  | 0, offset => some offset
  | lines + 1, offset =>
    match indexOfNewline text offset with
    | some next => lineStart text lines (next + 1)
    | none => none

/-- The offset so many characters on, up to the line's end. -/
def skipColumns (text : List ℕ) (lineEnd : ℕ) : ℕ → ℕ → ℕ
  | 0, offset => offset
  | columns + 1, offset =>
    if offset < lineEnd then
      skipColumns text lineEnd columns (offset + if codePoint (text.drop offset) > 0xFFFF then 2 else 1)
    else offset

/-- The offset of a 1-based line and column, clamped to the text. -/
def offsetOf (text : List ℕ) (line column : ℕ) : ℕ :=
  match lineStart text (line - 1) 0 with
  | none => text.length
  | some offset => skipColumns text ((indexOfNewline text offset).getD text.length) (column - 1) offset

end ProblemSpans

/-- An offset into a text as a line and a column from 1, the column in characters. -/
def Dashboard.placeOf (text : List ℕ) (offset : ℕ) : Position :=
  let lines := (sliceUnits text 0 offset).splitOn 10
  ⟨lines.length, (codePoints (lines.getLastD [])).length + 1⟩

/-- The offset in characters of a line and column, as a Monitor's check finds its last stage. -/
def MonitorQueryCheck.offset (query : String) (line column : ℕ) : ℕ :=
  let lines := if query = "" then [] else query.toList.splitOn '\n'
  Positions.sizeOfLines (lines.take (line - 1)) + column - 1

section Encoding

/-- Characters as UTF-16 units. -/
def units (cs : List Char) : List ℕ := cs.flatMap utf16Char

/-- The units of two texts are those of each. -/
theorem units_append (a b : List Char) : units (a ++ b) = units a ++ units b := List.flatMap_append

/-- The units of a text are those of its first character and of the rest. -/
theorem units_cons (c : Char) (cs : List Char) : units (c :: cs) = utf16Char c ++ units cs := List.flatMap_cons

/-- A character's number is no surrogate. -/
theorem toNat_lt_or (c : Char) : c.toNat < 0xD800 ∨ 0xDFFF < c.toNat ∧ c.toNat < 0x110000 := c.valid

/-- The first code point of a text is its first character, and the width by it the character's. -/
theorem codePoint_units (c : Char) (rest : List ℕ) :
    codePoint (utf16Char c ++ rest) = c.toNat ∧
      codePoints (utf16Char c ++ rest) = c.toNat :: codePoints rest ∧
      (if c.toNat > 0xFFFF then 2 else 1) = (utf16Char c).length := by
  have hvalid := toNat_lt_or c
  unfold utf16Char
  split
  case isTrue hbmp =>
    have hhigh : isHighSurrogate c.toNat = false := by
      simp [isHighSurrogate]
      omega
    refine ⟨?_, ?_, ?_⟩
    · cases rest <;> simp [codePoint, hhigh]
    · cases rest <;> simp [codePoints, hhigh]
    · rw [if_neg (by omega)]
      rfl
  case isFalse hastral =>
    have hhigh : isHighSurrogate (0xD800 + (c.toNat - 0x10000) / 0x400) = true := by
      simp [isHighSurrogate]
      omega
    have hlow : isLowSurrogate (0xDC00 + (c.toNat - 0x10000) % 0x400) = true := by
      simp [isLowSurrogate]
      omega
    have hpair : pair (0xD800 + (c.toNat - 0x10000) / 0x400) (0xDC00 + (c.toNat - 0x10000) % 0x400) =
        c.toNat := by
      unfold pair
      omega
    refine ⟨?_, ?_, ?_⟩
    · simp [codePoint, hhigh, hlow, hpair]
    · simp [codePoints, hhigh, hlow, hpair]
    · rw [if_pos (by omega)]
      rfl

/-- The code points of a text's units are its characters. -/
theorem codePoints_units (cs : List Char) : codePoints (units cs) = cs.map Char.toNat := by
  induction cs with
  | nil => rfl
  | cons c cs ih => rw [units_cons, (codePoint_units c _).2.1, ih, List.map_cons]

/-- Only a line break's unit is a line break. -/
theorem newline_not_mem_units {cs : List Char} (h : '\n' ∉ cs) : 10 ∉ units cs := by
  intro hmem
  obtain ⟨c, hc, hu⟩ := List.mem_flatMap.1 hmem
  unfold utf16Char at hu
  split at hu
  case isTrue =>
    have hten : c.toNat = '\n'.toNat := (List.mem_singleton.1 hu).symm
    rw [Char.toNat_inj.1 hten] at hc
    exact h hc
  case isFalse =>
    simp only [List.mem_cons, List.not_mem_nil, or_false] at hu
    omega

/-- A text's lines in units. -/
theorem splitOn_units (a : List Char) : (units a).splitOn 10 = (a.splitOn '\n').map units := by
  induction a using Positions.linesInduction with
  | line a h =>
    rw [List.splitOn_eq_singleton h, List.splitOn_eq_singleton (newline_not_mem_units h)]
    rfl
  | break' first rest h ih =>
    rw [units_append, units_cons, List.splitOn_append_cons_self_of_not_mem h, List.map_cons, ← ih]
    exact List.splitOn_append_cons_self_of_not_mem (newline_not_mem_units h) _

end Encoding

section Offsets

variable {text : List ℕ}

/-- Counting a line's characters goes over their units. -/
theorem skipColumns_units {a : List Char} {tail : List ℕ} {offset lineEnd : ℕ}
    (htext : text.drop offset = units a ++ tail) (hend : offset + (units a).length ≤ lineEnd) :
    ProblemSpans.skipColumns text lineEnd a.length offset = offset + (units a).length := by
  induction a generalizing offset with
  | nil => rfl
  | cons c a ih =>
    rw [units_cons, List.append_assoc] at htext
    obtain ⟨hcode, -, hwidth⟩ := codePoint_units c (units a ++ tail)
    rw [units_cons, List.length_append] at hend
    have hpos : 0 < (utf16Char c).length := by
      rw [← hwidth]
      split <;> decide
    have hrest : text.drop (offset + (utf16Char c).length) = units a ++ tail := by
      rw [← List.drop_drop, htext, List.drop_left]
    rw [List.length_cons, ProblemSpans.skipColumns, if_pos (by omega), htext, hcode, hwidth,
      ih hrest (by omega), units_cons, List.length_append, Nat.add_assoc]

/-- The next line break is past a line's units. -/
theorem indexOfNewline_line {line : List Char} (h : '\n' ∉ line) {rest : List ℕ} {offset : ℕ}
    (htext : text.drop offset = units line ++ rest) :
    indexOfNewline text offset = (rest.findIdx? (· = 10)).map fun i => offset + (units line).length + i := by
  have hnone : (units line).findIdx? (· = 10) = none := by
    rw [List.findIdx?_eq_none_iff]
    intro u hu
    have hne : u ≠ 10 := by
      rintro rfl
      exact newline_not_mem_units h hu
    simp [hne]
  rw [indexOfNewline, htext, List.findIdx?_append, hnone, Option.none_or, Option.map_map]
  congr 1
  funext i
  simp only [Function.comp_apply]
  omega

/-- Skipping the lines before a place comes to the start of its line. -/
theorem lineStart_units (a : List Char) : ∀ {offset : ℕ} {tail : List ℕ}, text.drop offset = units a ++ tail →
    ∃ start line, ProblemSpans.lineStart text ((Positions.after (1, 1) a).1 - 1) offset = some start ∧
      '\n' ∉ line ∧ (Positions.after (1, 1) a).2 = line.length + 1 ∧
      start + (units line).length = offset + (units a).length ∧ text.drop start = units line ++ tail := by
  induction a using Positions.linesInduction with
  | line a h =>
    intro offset tail htext
    rw [Positions.after_line h]
    exact ⟨offset, a, rfl, h, Nat.add_comm _ _, rfl, htext⟩
  | break' first rest h ih =>
    intro offset tail htext
    have hunits : units (first ++ '\n' :: rest) = units first ++ 10 :: units rest := by
      rw [units_append, units_cons]
      rfl
    rw [hunits, List.append_assoc, List.cons_append] at htext
    have hnext : indexOfNewline text offset = some (offset + (units first).length) := by
      rw [indexOfNewline_line h htext]
      simp [List.findIdx?_cons]
    have hdrop : text.drop (offset + (units first).length + 1) = units rest ++ tail := by
      rw [← List.drop_drop, ← List.drop_drop, htext, List.drop_left]
      rfl
    obtain ⟨start, line, hstart, hline, hcolumn, hoffset, hrest⟩ := ih hdrop
    have hlines : (Positions.after (1, 1) rest).1 - 1 + 1 = (Positions.after (1, 1) rest).1 := by
      rw [Positions.after_eq_splitOn]
      exact Nat.sub_add_cancel (List.length_pos_iff.2 (List.splitOn_ne_nil _ _))
    rw [Positions.after_break h, Positions.after_shift, Nat.add_sub_cancel, ← hlines]
    refine ⟨start, line, ?_, hline, hcolumn, ?_, hrest⟩
    · rw [ProblemSpans.lineStart, hnext]
      exact hstart
    · rw [hunits, List.length_append, List.length_cons]
      omega

/-- The offset of the place after a text is the text's length in units. -/
theorem offsetOf_units (a b : List Char) :
    ProblemSpans.offsetOf (units (a ++ b)) (Positions.after (1, 1) a).1 (Positions.after (1, 1) a).2 =
      (units a).length := by
  have htext : (units (a ++ b)).drop 0 = units a ++ units b := units_append a b
  obtain ⟨start, line, hstart, hline, hcolumn, hoffset, hrest⟩ := lineStart_units a htext
  rw [Nat.zero_add] at hoffset
  rw [ProblemSpans.offsetOf, hstart, hcolumn, Nat.add_sub_cancel]
  simp only
  rw [skipColumns_units hrest, hoffset]
  rw [indexOfNewline_line hline hrest]
  cases (units b).findIdx? (· = 10) with
  | some i => simp
  | none =>
    rw [Option.map_none, Option.getD_none, hoffset, units_append, List.length_append]
    exact Nat.le_add_right _ _

/-- The place at the end of a text is the place after it. -/
theorem placeOf_units (a b : List Char) :
    Dashboard.placeOf (units (a ++ b)) (units a).length =
      ⟨(Positions.after (1, 1) a).1, (Positions.after (1, 1) a).2⟩ := by
  have hslice : sliceUnits (units (a ++ b)) 0 (units a).length = units a := by
    rw [sliceUnits, List.drop_zero, Nat.sub_zero, units_append, List.take_left]
  have hlast : ((a.splitOn '\n').map units).getLastD [] = units ((a.splitOn '\n').getLastD []) := by
    rw [List.getLastD_eq_getLast?, List.getLast?_map, List.getLastD_eq_getLast?]
    cases (a.splitOn '\n').getLast? <;> rfl
  rw [Dashboard.placeOf, hslice, splitOn_units, List.length_map, hlast, codePoints_units, List.length_map,
    Positions.after_eq_splitOn]

end Offsets

/-- At each character boundary of a text, the line and column that the event store gives are read as the
boundary's index of units by the browser, which gives them back from it, and as its index of characters
by Console. -/
theorem offsets_agree (pre post : String) :
    let text := pre ++ post
    let place := positionOf text (runes pre).size
    ProblemSpans.offsetOf (utf16 text) place.line place.column = (utf16 pre).length ∧
      offsetOf text place.line place.column = (utf16 pre).length ∧
      Dashboard.placeOf (utf16 text) (utf16 pre).length = place ∧
      MonitorQueryCheck.offset text place.line place.column = pre.length := by
  have hunits : utf16 (pre ++ post) = units (pre.toList ++ post.toList) := by
    rw [utf16, String.toList_append]
    rfl
  have hplace := positionOf_append pre post
  refine ⟨?_, offsetOf_append pre post, ?_, ?_⟩
  · rw [hplace, hunits]
    exact offsetOf_units pre.toList post.toList
  · rw [hplace, hunits]
    exact placeOf_units pre.toList post.toList
  · have hsize := Positions.sizeOfLines_place pre.toList post.toList
    rw [hplace]
    simp only [MonitorQueryCheck.offset]
    split
    case isFalse =>
      rw [String.toList_append, hsize, String.length_toList]
    case isTrue hempty =>
      obtain ⟨rfl, rfl⟩ := String.append_eq_empty_iff.1 hempty
      rfl

end SolidTrace.LogQuery
