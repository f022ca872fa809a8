import Mathlib.Data.List.Basic

/-!
# Signals that alternate

A flag goes up and down, and a list holds a signal for each of its changes. The signals then
alternate, and the last of them is where the flag stands.
-/

namespace Alternation

/-- Signals that each change the level, from a level on. -/
def Valid : Bool → List Bool → Prop
  | _, [] => True
  | level, signal :: rest => signal ≠ level ∧ Valid signal rest

/-- The level after signals. -/
def final : Bool → List Bool → Bool
  | level, [] => level
  | _, signal :: rest => final signal rest

/-- The signal a change from one level to another owes. -/
def owed (before after : Bool) : List Bool := if before = after then [] else [after]

/-- Signals alternate when the first of them do, and the others from the level those end at. -/
theorem valid_append (level : Bool) (l m : List Bool) :
    Valid level (l ++ m) ↔ Valid level l ∧ Valid (final level l) m := by
  induction l generalizing level with
  | nil => simp [Valid, final]
  | cons signal rest ih => simp [Valid, final, ih, and_assoc]

/-- The level after signals is reached through the level after the first of them. -/
theorem final_append (level : Bool) (l m : List Bool) :
    final level (l ++ m) = final (final level l) m := by
  induction l generalizing level with
  | nil => rfl
  | cons signal rest ih => exact ih signal

/-- The signal a change owes keeps the signals alternating and the level theirs. -/
theorem valid_append_owed {level before after : Bool} {l : List Bool} (hvalid : Valid level l)
    (hfinal : final level l = before) :
    Valid level (l ++ owed before after) ∧ final level (l ++ owed before after) = after := by
  rw [valid_append, final_append, hfinal, owed]
  by_cases hsame : before = after
  · simp [hsame, hvalid, Valid, final]
  · simp [hsame, hvalid, Valid, final, Ne.symm hsame]

end Alternation
