import Mathlib.Data.Int.Order.Basic
import Mathlib.Data.List.Basic

/-!
# Pieces of a list

A list cut into pieces with gaps between them, each piece known by where it starts and stops.
-/

/-- A list, from a place, is some pieces, none of them empty, with a gap before each and one of another
kind at the end. -/
inductive Tiles {α β : Type*} (span : β → ℤ × ℤ) (gap last : List α → Prop) : ℕ → List α → List β → Prop
  | last {start : ℕ} {cells : List α} (h : last cells) : Tiles span gap last start cells []
  | piece {start : ℕ} {before cells rest : List α} {x : β} {xs : List β} (hgap : gap before)
      (hcells : cells ≠ [])
      (hspan : span x = (((start + before.length : ℕ) : ℤ), ((start + before.length + cells.length : ℕ) : ℤ)))
      (h : Tiles span gap last (start + before.length + cells.length) rest xs) :
      Tiles span gap last start (before ++ (cells ++ rest)) (x :: xs)

namespace Tiles

variable {α β : Type*} {span : β → ℤ × ℤ} {gap last : List α → Prop} {start : ℕ} {cells : List α}
  {xs : List β}

/-- Each piece lies in the list and is not empty. -/
theorem within (h : Tiles span gap last start cells xs) :
    ∀ x ∈ xs, (start : ℤ) ≤ (span x).1 ∧ (span x).1 < (span x).2 ∧ (span x).2 ≤ (start + cells.length : ℕ) := by
  induction h with
  | last => exact nofun
  | @piece start before cells rest x xs _ hcells hspan _ ih =>
    have hpos := List.length_pos_of_ne_nil hcells
    simp only [List.length_append, List.forall_mem_cons]
    constructor
    · rw [hspan]
      omega
    · intro y hy
      have hin := ih y hy
      omega

/-- Each piece ends before the next one starts. -/
theorem ordered (h : Tiles span gap last start cells xs) :
    xs.Pairwise fun x y => (span x).2 ≤ (span y).1 := by
  induction h with
  | last => exact .nil
  | @piece start before cells rest x xs _ _ hspan hrest ih =>
    refine .cons (fun y hy => ?_) ih
    rw [hspan]
    exact (hrest.within y hy).1

end Tiles
