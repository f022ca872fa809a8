import Mathlib.Order.Lattice
import Mathlib.Data.List.Basic

/-!
# Picking one of a list

An operation that answers one of its two arguments, folded over a list, answers one of the list. A
test that holds of what is picked when it holds of either argument holds of the list's pick when it
holds of any of the list.
-/

namespace SolidTrace.Lib

variable {α : Type*} {pick : α → α → α}

/-- An operation that answers one of its arguments. -/
def Picks (pick : α → α → α) : Prop := ∀ a b, pick a b = a ∨ pick a b = b

/-- A pick from many is one of them. -/
theorem Picks.foldl_mem (hpick : Picks pick) (first : α) (rest : List α) :
    rest.foldl pick first ∈ first :: rest := by
  induction rest generalizing first with
  | nil => simp
  | cons second rest ih =>
    have hrest := ih (pick first second)
    rw [List.foldl_cons]
    apply List.mem_cons.mpr
    cases List.mem_cons.mp hrest with
    | inl hsame => cases hpick first second with
      | inl hfirst => exact Or.inl (hsame.trans hfirst)
      | inr hsecond => exact Or.inr (List.mem_cons.mpr (Or.inl (hsame.trans hsecond)))
    | inr hmem => exact Or.inr (List.mem_cons_of_mem _ hmem)

/-- A test of the pick of two is a test of either; then so it is of the pick of a list. -/
theorem foldl_passes_iff {test : α → Prop} (htest : ∀ a b, test (pick a b) ↔ test a ∨ test b)
    (first : α) (rest : List α) :
    test (rest.foldl pick first) ↔ ∃ a ∈ first :: rest, test a := by
  induction rest generalizing first with
  | nil => simp
  | cons second rest ih => simp [ih, htest, or_assoc]

end SolidTrace.Lib
