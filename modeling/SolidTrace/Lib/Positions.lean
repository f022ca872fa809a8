import Mathlib.Algebra.BigOperators.Group.List.Basic
import Mathlib.Algebra.GroupWithZero.Nat

/-!
# Lines and columns

The line and column of each place of a text, from 1. Each place has one of its own, so that a place is
found again by walking the text, or by adding up the lines before it.
-/

namespace Positions

/-- The place after a character. -/
def advance (place : ℕ × ℕ) (c : Char) : ℕ × ℕ :=
  if c = '\n' then (place.1 + 1, 1) else (place.1, place.2 + 1)

/-- The line and column after some characters. -/
def after (place : ℕ × ℕ) (text : List Char) : ℕ × ℕ := text.foldl advance place

/-- The place after two texts is reached one text at a time. -/
theorem after_append (place : ℕ × ℕ) (a b : List Char) :
    after place (a ++ b) = after (after place a) b := List.foldl_append

/-- A place comes before another one. -/
def Precedes (p q : ℕ × ℕ) : Prop := p.1 < q.1 ∨ p.1 = q.1 ∧ p.2 < q.2

/-- Each character moves the place forward. -/
theorem precedes_advance (place : ℕ × ℕ) (c : Char) : Precedes place (advance place c) := by
  unfold advance
  split
  · exact .inl (Nat.lt_succ_self _)
  · exact .inr ⟨rfl, Nat.lt_succ_self _⟩

/-- Earlier than an earlier place is earlier. -/
theorem Precedes.trans {p q r : ℕ × ℕ} (h : Precedes p q) (h' : Precedes q r) : Precedes p r := by
  unfold Precedes at h h' ⊢
  omega

/-- No place is earlier than itself. -/
theorem Precedes.ne {p q : ℕ × ℕ} (h : Precedes p q) : p ≠ q := by
  rintro rfl
  unfold Precedes at h
  omega

/-- A text that is not empty moves the place forward. -/
theorem precedes_after {place : ℕ × ℕ} {text : List Char} (h : text ≠ []) :
    Precedes place (after place text) := by
  induction text generalizing place with
  | nil => exact absurd rfl h
  | cons c text ih =>
    cases text with
    | nil => exact precedes_advance place c
    | cons d text => exact (precedes_advance place c).trans (ih (List.cons_ne_nil d text))

/-- Two places of a text with the same line and column are one. -/
theorem after_inj {place : ℕ × ℕ} {a b a' b' : List Char} (h : a ++ b = a' ++ b')
    (hplace : after place a = after place a') : a = a' := by
  rcases List.append_eq_append_iff.1 h with ⟨m, rfl, -⟩ | ⟨m, rfl, -⟩
  all_goals
    by_cases hm : m = []
    · simp [hm]
    · rw [after_append] at hplace
      first
        | exact absurd hplace (precedes_after hm).ne
        | exact absurd hplace.symm (precedes_after hm).ne

section Breaks

/-- Induction on a text's lines: the last one, and one more line before others. -/
theorem linesInduction {P : List Char → Prop} (line : ∀ a, '\n' ∉ a → P a)
    (break' : ∀ first rest, '\n' ∉ first → P rest → P (first ++ '\n' :: rest)) (a : List Char) : P a := by
  by_cases h : '\n' ∈ a
  · obtain ⟨first, rest, heq, hfirst⟩ := List.eq_append_cons_of_mem h
    have hlt : rest.length < a.length := by
      rw [heq, List.length_append, List.length_cons]
      omega
    rw [heq]
    exact break' first rest hfirst (linesInduction line break' rest)
  · exact line a h
termination_by a.length

/-- A text without a line break stays on its line. -/
theorem after_line {a : List Char} (h : '\n' ∉ a) (line column : ℕ) :
    after (line, column) a = (line, column + a.length) := by
  induction a generalizing column with
  | nil => rfl
  | cons c a ih =>
    obtain ⟨hc, ha⟩ := not_or.1 (List.mem_cons.not.1 h)
    have hstep : after (line, column) (c :: a) = after (line, column + 1) a := by
      simp [after, advance, Ne.symm hc]
    rw [hstep, ih ha, List.length_cons]
    congr 1
    omega

/-- A line break ends the line, whatever stood on it. -/
theorem after_break {first : List Char} (h : '\n' ∉ first) (rest : List Char) (line column : ℕ) :
    after (line, column) (first ++ '\n' :: rest) = after (line + 1, 1) rest := by
  rw [after_append, after_line h]
  rfl

/-- Where a text starts further down, everything in it does. -/
theorem after_shift (a : List Char) (line column k : ℕ) :
    after (line + k, column) a = ((after (line, column) a).1 + k, (after (line, column) a).2) := by
  induction a generalizing line column with
  | nil => rfl
  | cons c a ih =>
    by_cases hc : c = '\n'
    · have hstep (l : ℕ) : after (l, column) (c :: a) = after (l + 1, 1) a := by simp [after, advance, hc]
      rw [hstep, hstep, show line + k + 1 = line + 1 + k by omega, ih]
    · have hstep (l : ℕ) : after (l, column) (c :: a) = after (l, column + 1) a := by
        simp [after, advance, hc]
      rw [hstep, hstep, ih]

/-- A place is the number of lines before it and one more than the characters of its line before it. -/
theorem after_eq_splitOn (a : List Char) :
    after (1, 1) a = ((a.splitOn '\n').length, ((a.splitOn '\n').getLastD []).length + 1) := by
  induction a using linesInduction with
  | line a h =>
    rw [after_line h, List.splitOn_eq_singleton h]
    simp [Nat.add_comm]
  | break' first rest h ih =>
    obtain ⟨line, lines, hlines⟩ := List.exists_cons_of_ne_nil (List.splitOn_ne_nil '\n' rest)
    rw [after_break h, after_shift, ih, List.splitOn_append_cons_self_of_not_mem h, hlines]
    simp

end Breaks

section Walking

variable (size : Char → ℕ)

/-- Walk a text from a place to a line and column, adding up the characters' sizes. -/
def walk (target : ℕ × ℕ) : ℕ × ℕ → ℕ → List Char → ℕ
  | _, at', [] => at'
  | place, at', c :: rest =>
    if place = target then at' else walk target (advance place c) (at' + size c) rest

/-- Walking to a place's line and column gives the size of what is before it. -/
theorem walk_after (place : ℕ × ℕ) (at' : ℕ) (a b : List Char) :
    walk size (after place a) place at' (a ++ b) = at' + (a.map size).sum := by
  induction a generalizing place at' with
  | nil =>
    cases b with
    | nil => rfl
    | cons c b => simp [walk, after]
  | cons c a ih =>
    have hne : place ≠ after place (c :: a) := (precedes_after (List.cons_ne_nil c a)).ne
    rw [List.cons_append, walk, if_neg hne]
    have hrest : after place (c :: a) = after (advance place c) a := rfl
    rw [hrest, ih, List.map_cons, List.sum_cons, Nat.add_assoc]

end Walking

section Lines

/-- The characters of so many lines, each with its line break. -/
def sizeOfLines (lines : List (List Char)) : ℕ := (lines.map fun line => line.length + 1).sum

/-- The lines before a place and its column add up to the characters before it. -/
theorem sizeOfLines_after (line column : ℕ) (a b : List Char) :
    ∃ n, (after (line, column) a).1 = line + n ∧
      (n = 0 → (after (line, column) a).2 = column + a.length) ∧
      (n ≠ 0 → sizeOfLines (((a ++ b).splitOn '\n').take n) + (after (line, column) a).2 =
        a.length + 1) := by
  induction a generalizing line column with
  | nil => exact ⟨0, rfl, fun _ => rfl, nofun⟩
  | cons c a ih =>
    by_cases hc : c = '\n'
    · obtain ⟨n, hline, hzero, hsucc⟩ := ih (line + 1) 1
      have hstep : after (line, column) (c :: a) = after (line + 1, 1) a := by simp [after, advance, hc]
      rw [hstep]
      refine ⟨n + 1, by omega, nofun, fun _ => ?_⟩
      have hsplit : (c :: a ++ b).splitOn '\n' = [] :: (a ++ b).splitOn '\n' := by
        rw [List.cons_append, List.splitOn_cons_eq_if_modifyHead, if_pos (by simp [hc])]
      rw [hsplit, List.take_succ_cons, sizeOfLines, List.map_cons, List.sum_cons]
      by_cases hn : n = 0
      · rw [hzero hn, hn]
        simp
        omega
      · have hrest := hsucc hn
        rw [sizeOfLines] at hrest
        simp only [List.length_nil, List.length_cons]
        omega
    · obtain ⟨n, hline, hzero, hsucc⟩ := ih line (column + 1)
      have hstep : after (line, column) (c :: a) = after (line, column + 1) a := by simp [after, advance, hc]
      rw [hstep]
      refine ⟨n, hline, fun hn => ?_, fun hn => ?_⟩
      · rw [hzero hn, List.length_cons]
        omega
      · obtain ⟨n, rfl⟩ := Nat.exists_eq_succ_of_ne_zero hn
        obtain ⟨first, rest, hlines⟩ :=
          List.exists_cons_of_ne_nil (List.splitOn_ne_nil '\n' (a ++ b))
        have hsplit : (c :: a ++ b).splitOn '\n' = (c :: first) :: rest := by
          rw [List.cons_append, List.splitOn_cons_eq_if_modifyHead, if_neg (by simp [hc]), hlines]
          rfl
        have hsum := hsucc hn
        rw [hlines, Nat.succ_eq_add_one, List.take_succ_cons, sizeOfLines, List.map_cons,
          List.sum_cons] at hsum
        rw [hsplit, Nat.succ_eq_add_one, List.take_succ_cons, sizeOfLines, List.map_cons,
          List.sum_cons, List.length_cons, List.length_cons]
        omega

/-- The characters before a place, from its line and column. -/
theorem sizeOfLines_place (a b : List Char) :
    sizeOfLines (((a ++ b).splitOn '\n').take ((after (1, 1) a).1 - 1)) + (after (1, 1) a).2 - 1 =
      a.length := by
  obtain ⟨n, hline, hzero, hsucc⟩ := sizeOfLines_after 1 1 a b
  rw [hline, Nat.add_sub_cancel_left]
  by_cases hn : n = 0
  · rw [hzero hn, hn, List.take_zero]
    simp [sizeOfLines]
  · have hsum := hsucc hn
    omega

end Lines

end Positions
