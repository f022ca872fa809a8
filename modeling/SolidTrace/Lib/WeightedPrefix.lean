import Mathlib.Data.List.Basic

/-!
# Reading a list until a weight is reached

A reader that stops once what it has read weighs enough takes a prefix, which later entries
appended behind it cannot change once it has stopped.
-/

namespace WeightedPrefix

variable {α : Type*}

/-- Take entries while those taken so far, `taken` before the first, weigh less than `limit`. -/
def takeWeight (weight : α → ℕ) (limit taken : ℕ) : List α → List α
  | [] => []
  | a :: rest => if taken < limit then a :: takeWeight weight limit (taken + weight a) rest else []

/-- What is taken is a prefix. -/
theorem takeWeight_prefix (weight : α → ℕ) (limit taken : ℕ) (l : List α) :
    takeWeight weight limit taken l <+: l := by
  induction l generalizing taken with
  | nil => exact List.prefix_refl _
  | cons a rest ih =>
    rw [takeWeight]
    split
    · exact List.prefix_cons_inj a |>.mpr (ih _)
    · exact List.nil_prefix

/-- Taking again from what was taken takes all of it. -/
theorem takeWeight_takeWeight (weight : α → ℕ) (limit taken : ℕ) (l : List α) :
    takeWeight weight limit taken (takeWeight weight limit taken l) =
      takeWeight weight limit taken l := by
  induction l generalizing taken with
  | nil => rfl
  | cons a rest ih =>
    by_cases h : taken < limit
    · simp only [takeWeight, h, if_true, ih]
    · simp [takeWeight, h]

/-- A prefix that is taken whole stays at the front of what is taken from any longer list. -/
theorem takeWeight_append (weight : α → ℕ) (limit taken : ℕ) (l more : List α)
    (hl : takeWeight weight limit taken l = l) :
    ∃ extra, takeWeight weight limit taken (l ++ more) = l ++ extra ∧ extra <+: more := by
  induction l generalizing taken with
  | nil => exact ⟨_, rfl, takeWeight_prefix weight limit taken more⟩
  | cons a rest ih =>
    by_cases h : taken < limit
    · simp only [takeWeight, h, if_true, List.cons.injEq, true_and] at hl
      obtain ⟨extra, hextra, hmore⟩ := ih _ hl
      exact ⟨extra, by simp [takeWeight, h, hextra], hmore⟩
    · simp [takeWeight, h] at hl

end WeightedPrefix
