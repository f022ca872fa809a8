import SolidTrace.Dashboards.SelectOptions
import SolidTrace.Lib.Digits

/-!
# The value of a chip

A Where filter's value is edited as text: `editableText` shows it and `parseValue` reads it back, with its
type. A text is its UTF-16 code units.
-/

namespace SolidTrace.LogsExplorer

open Dashboards (Text trim Trimmed isSpace)

section Model

/-- JavaScript's finite numbers: how `String` writes one, and the one that `Number` reads in a text, if it
is finite. -/
structure Numbers (D : Type*) where
  write : D → Text
  read : Text → Option D

/-- A chip's value keeps its type. -/
inductive ChipValue (D : Type*) where
  | string (s : Text)
  | number (n : D)
  | bool (b : Bool)
deriving DecidableEq

/-- The code units of a text of ASCII. -/
def unitsOf (s : String) : Text := s.toList.map fun c => c.toNat.toUInt16

def doubleQuote : UInt16 := 34

def singleQuote : UInt16 := 39

def boolText (b : Bool) : Text := unitsOf (if b then "true" else "false")

/-- `/^"(.*)"$/s` for a quote, and what its group takes. -/
def quoted (quote : UInt16) : Text → Option Text
  | [] => none
  | u :: text => if u = quote then (Backtrack.greedily (fun _ => true) close text).map Prod.fst else none
where
  /-- `"$`. -/
  close (text : Text) : Option Unit := if text = [quote] then some () else none

variable {D : Type*} (numbers : Numbers D)

/-- A value typed in an editor. -/
def parseValue (text : Text) : ChipValue D :=
  let trimmed := trim text
  match (quoted doubleQuote trimmed).or (quoted singleQuote trimmed) with
  | some inner => .string inner
  | none =>
    if trimmed = boolText true ∨ trimmed = boolText false then .bool (trimmed = boolText true)
    else
      match if trimmed ≠ [] then numbers.read trimmed else none with
      | some n => .number n
      | none => .string text

/-- A value as an editor shows it. -/
def editableText [DecidableEq D] : ChipValue D → Text
  | .number n => numbers.write n
  | .bool b => boolText b
  | .string s => if parseValue numbers s = .string s then s else doubleQuote :: s ++ [doubleQuote]

end Model

section RoundTrip

variable {D : Type*} {numbers : Numbers D}

/-- What a number is written with. -/
def numberUnits : Text := unitsOf "0123456789+-.e"

/-- Numbers are written in digits, with a sign, a point and an exponent, and read back. -/
structure Numbers.RoundTrips (numbers : Numbers D) : Prop where
  read_write : ∀ n, numbers.read (numbers.write n) = some n
  units : ∀ n, ∀ u ∈ numbers.write n, u ∈ numberUnits
  ne_nil : ∀ n, numbers.write n ≠ []

/-- A text between quotes is read whole, whatever is in it. -/
theorem quoted_eq (quote : UInt16) (s : Text) : quoted quote (quote :: s ++ [quote]) = some s := by
  have hclose : quoted.close quote [quote] = some () := if_pos rfl
  have hlongest : ∀ run rest : Text, s ++ [quote] = run ++ rest → s.length < run.length →
      quoted.close quote rest = none := by
    intro run rest hsplit hlength
    -- A longer run leaves nothing for the closing quote.
    have hlengths := congrArg List.length hsplit
    simp only [List.length_append, List.length_singleton] at hlengths
    obtain rfl : rest = [] := List.eq_nil_of_length_eq_zero (by omega)
    rfl
  have htaken := Backtrack.greedily_of_longest (fun _ => true) (fun _ _ => rfl) hclose hlongest
  rw [List.cons_append, quoted, if_pos rfl, htaken]
  rfl

/-- A text without a quote is not quoted. -/
theorem quoted_eq_none {quote : UInt16} {text : Text} (h : quote ∉ text) : quoted quote text = none := by
  cases text with
  | nil => rfl
  | cons u text =>
    have hne : u ≠ quote := fun heq => h (heq ▸ List.mem_cons_self)
    exact if_neg hne

/-- A quoted text has nothing to trim. -/
theorem trim_quoted (s : Text) : trim (doubleQuote :: s ++ [doubleQuote]) = doubleQuote :: s ++ [doubleQuote] := by
  have hquote : isSpace doubleQuote = false := by decide
  refine Trimmed.trim ⟨List.cons_ne_nil _ _, ?_, ?_⟩
  · intro u hu
    obtain rfl : doubleQuote = u := by simpa using hu
    exact hquote
  · intro u hu
    rw [List.getLast?_concat] at hu
    obtain rfl : doubleQuote = u := by simpa using hu
    exact hquote

/-- Quotes make a string of anything. -/
theorem parseValue_quoted (numbers : Numbers D) (s : Text) :
    parseValue numbers (doubleQuote :: s ++ [doubleQuote]) = .string s := by
  rw [parseValue, trim_quoted, quoted_eq, Option.some_or]

/-- A bool is parsed as it is written. -/
theorem parseValue_boolText (numbers : Numbers D) (b : Bool) : parseValue numbers (boolText b) = .bool b := by
  cases b <;> rfl

/-- A number is parsed as it is written, where writing and reading round-trip. -/
theorem parseValue_write (h : numbers.RoundTrips) (n : D) : parseValue numbers (numbers.write n) = .number n := by
  have hspace : numberUnits.all (fun u => !isSpace u) = true := by decide
  have hword : ∀ b, ∃ u ∈ boolText b, u ∉ numberUnits := by
    intro b
    cases b
    · exact ⟨102, by decide, by decide⟩
    · exact ⟨116, by decide, by decide⟩
  have hnot : ∀ u, u ∉ numberUnits → u ∉ numbers.write n := fun u hu hmem => hu (h.units n u hmem)
  have htrim : trim (numbers.write n) = numbers.write n := by
    refine Trimmed.trim ⟨h.ne_nil n, fun u hu => ?_, fun u hu => ?_⟩
    · simpa using List.all_eq_true.1 hspace u (h.units n u (List.mem_of_head? hu))
    · simpa using List.all_eq_true.1 hspace u (h.units n u (List.mem_of_getLast? hu))
  have hdouble := quoted_eq_none (hnot doubleQuote (by decide))
  have hsingle := quoted_eq_none (hnot singleQuote (by decide))
  have hbool : ∀ b, numbers.write n ≠ boolText b := by
    intro b heq
    obtain ⟨u, hu, hu'⟩ := hword b
    exact hnot u hu' (heq ▸ hu)
  rw [parseValue, htrim, hdouble, hsingle, Option.or_none]
  simp only [hbool, or_self, if_false, h.ne_nil n, ne_eq, not_false_eq_true, if_true, h.read_write n]

/-- A value as an editor shows it is read back the same, with its type. -/
theorem parseValue_editableText [DecidableEq D] (h : numbers.RoundTrips) (v : ChipValue D) :
    parseValue numbers (editableText numbers v) = v := by
  cases v with
  | number n => exact parseValue_write h n
  | bool b => exact parseValue_boolText numbers b
  | string s =>
    by_cases hsame : parseValue numbers s = .string s
    · rw [editableText, if_pos hsame, hsame]
    · rw [editableText, if_neg hsame]
      exact parseValue_quoted numbers s

end RoundTrip

section Samples

/-- Whole numbers from 0, in decimal. -/
private def wholeNumbers : Numbers ℕ where
  write n := (Digits.least 10 n).map fun d => UInt16.ofNat (48 + d)
  read text :=
    if text ≠ [] ∧ text.all (fun u => 48 ≤ u.toNat && u.toNat ≤ 57) then
      some (Digits.value 10 (text.map fun u => u.toNat - 48))
    else none

/-- A digit's unit is 48 more than the digit. -/
private theorem toNat_digitUnit {d n : ℕ} (h : d ∈ Digits.least 10 n) :
    (UInt16.ofNat (48 + d)).toNat = 48 + d ∧ d < 10 := by
  have hlt := Digits.least_lt (by decide) n d h
  refine ⟨?_, hlt⟩
  rw [UInt16.toNat_ofNat']
  omega

/-- Whole numbers round-trip. -/
private theorem wholeNumbers_roundTrips : wholeNumbers.RoundTrips where
  read_write n := by
    have hne : wholeNumbers.write n ≠ [] := by simpa [wholeNumbers] using Digits.least_ne_nil 10 n
    have hdigits : (wholeNumbers.write n).all (fun u => 48 ≤ u.toNat && u.toNat ≤ 57) = true := by
      rw [List.all_eq_true]
      intro u hu
      obtain ⟨d, hd, rfl⟩ := List.mem_map.1 hu
      obtain ⟨hunit, hlt⟩ := toNat_digitUnit hd
      rw [hunit, Bool.and_eq_true, decide_eq_true_eq, decide_eq_true_eq]
      omega
    have hvalue : (wholeNumbers.write n).map (fun u => u.toNat - 48) = Digits.least 10 n := by
      unfold wholeNumbers
      rw [List.map_map]
      conv_rhs => rw [← List.map_id (Digits.least 10 n)]
      refine List.map_congr_left fun d hd => ?_
      rw [Function.comp_apply, (toNat_digitUnit hd).1, Nat.add_sub_cancel_left, id]
    change (if wholeNumbers.write n ≠ [] ∧ (wholeNumbers.write n).all _ = true then some _ else none) = _
    rw [if_pos ⟨hne, hdigits⟩, hvalue, Digits.value_least]
  units n u hu := by
    obtain ⟨d, hd, rfl⟩ := List.mem_map.1 hu
    have hunits : ∀ d < 10, UInt16.ofNat (48 + d) ∈ numberUnits := by decide
    exact hunits d (toNat_digitUnit hd).2
  ne_nil n := by simpa [wholeNumbers] using Digits.least_ne_nil 10 n

/-- The string `"500"`, quotes and all, is shown in quotes of its own. -/
theorem parseValue_editableText_quoted :
    editableText wholeNumbers (.string (unitsOf "\"500\"")) = unitsOf "\"\"500\"\"" ∧
      parseValue wholeNumbers (editableText wholeNumbers (.string (unitsOf "\"500\""))) =
        .string (unitsOf "\"500\"") :=
  ⟨by decide, parseValue_editableText wholeNumbers_roundTrips _⟩

end Samples

end SolidTrace.LogsExplorer
