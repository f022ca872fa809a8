import Mathlib.Data.List.Sort
import SolidTrace.Lib.MergeTake

/-!
# Lists in a strict order

A list that keeps a strict order is told by its entries alone: by what it selects, where it is cut,
and what was merged to make it.
-/

namespace StrictOrder

variable {α : Type*} {r : α → α → Prop}

/-- Lists in a strict order with the same entries are the same list. -/
theorem eq_of_mem_iff (hasymm : ∀ a b, r a b → ¬r b a) {left right : List α}
    (hleft : left.Pairwise r) (hright : right.Pairwise r) (hmem : ∀ a, a ∈ left ↔ a ∈ right) :
    left = right := by
  have hne : ∀ a b, r a b → a ≠ b := by
    rintro a _ hab rfl
    exact hasymm a a hab hab
  have hperm : left.Perm right :=
    (List.perm_ext_iff_of_nodup (hleft.imp (hne _ _)) (hright.imp (hne _ _))).2 hmem
  exact hperm.eq_of_pairwise (fun a b _ _ hab hba => absurd hba (hasymm a b hab)) hleft hright

/-- Entries selected from an ordered list come before those that are not, where what is selected
comes first. -/
theorem filter_append_filter {p q : α → Bool} {xs : List α} (hxs : xs.Pairwise r)
    (hsplit : ∀ a ∈ xs, ∀ b ∈ xs, r a b → p b = true → p a = true)
    (hq : ∀ a ∈ xs, q a = !p a) : xs.filter p ++ xs.filter q = xs := by
  induction xs with
  | nil => rfl
  | cons x rest ih =>
    obtain ⟨hx, hrest⟩ := List.pairwise_cons.1 hxs
    have ih := ih hrest (fun a ha b hb => hsplit a (.tail _ ha) b (.tail _ hb))
      fun a ha => hq a (.tail _ ha)
    have hqx := hq x (.head _)
    cases hp : p x with
    | true => simp [hp, hqx, ih]
    | false =>
      have hnone : rest.filter p = [] := by
        rw [List.filter_eq_nil_iff]
        intro b hb hpb
        have := hsplit x (.head _) b (.tail _ hb) (hx b hb) hpb
        simp [hp] at this
      rw [hnone, List.nil_append] at ih
      simp [hp, hqx, hnone, ih]

/-- The entries after the last of a prefix of an ordered list are the rest of it. -/
theorem filter_after_last (hasymm : ∀ a b, r a b → ¬r b a) {after : α → Bool} {xs ys : List α}
    {last : α} (hxs : (xs ++ last :: ys).Pairwise r)
    (hafter : ∀ a ∈ xs ++ last :: ys, after a = true ↔ r last a) :
    (xs ++ last :: ys).filter after = ys := by
  obtain ⟨-, hright, hcross⟩ := List.pairwise_append.1 hxs
  obtain ⟨hlast, -⟩ := List.pairwise_cons.1 hright
  have hbefore : xs.filter after = [] := by
    rw [List.filter_eq_nil_iff]
    intro a ha h
    exact hasymm a last (hcross a ha last (.head _)) ((hafter a (by simp [ha])).1 h)
  have hself : after last = false := by
    by_contra h
    have hrel := (hafter last (by simp)).1 (by simpa using h)
    exact hasymm last last hrel hrel
  have hall : ys.filter after = ys := by
    rw [List.filter_eq_self]
    exact fun a ha => (hafter a (by simp [ha])).2 (hlast a ha)
  rw [List.filter_append, List.filter_cons, hbefore, hself, hall]
  rfl

/-- The first entries of an ordered list are also those of any part of it that has them all. -/
theorem take_eq_of_subset (hasymm : ∀ a b, r a b → ¬r b a) {xs ys : List α} {n : ℕ}
    (hxs : xs.Pairwise r) (hys : ys.Pairwise r) (hsub : ∀ a ∈ ys, a ∈ xs)
    (hfirst : ∀ a ∈ xs.take n, a ∈ ys) : ys.take n = xs.take n := by
  classical
  have hys' : ys = xs.filter fun a => decide (a ∈ ys) := by
    apply eq_of_mem_iff hasymm hys (hxs.filter _)
    intro a
    simp only [List.mem_filter, decide_eq_true_eq]
    exact ⟨fun ha => ⟨hsub a ha, ha⟩, fun ha => ha.2⟩
  have htake : (xs.take n).filter (fun a => decide (a ∈ ys)) = xs.take n := by
    rw [List.filter_eq_self]
    exact fun a ha => by simpa using hfirst a ha
  have hsplit : ys = xs.take n ++ (xs.drop n).filter fun a => decide (a ∈ ys) := by
    conv => lhs; rw [hys', ← List.take_append_drop n xs, List.filter_append, htake]
  rw [hsplit]
  by_cases hn : n ≤ xs.length
  · rw [List.take_append_of_le_length (by simp [hn]), List.take_take, min_self]
  · rw [List.drop_eq_nil_of_le (by omega), List.filter_nil, List.append_nil, List.take_take,
      min_self]

/-- Merging ordered lists up to a limit, each cut at it, gives the first entries in order of what
either has. -/
theorem mergeTake_eq_take {s : α → α → Prop} [DecidableRel s]
    (hasymm : ∀ a b, r a b → ¬r b a) (htotal : ∀ a b, s a b ∨ s b a)
    (htrans : ∀ a b c, s a b → s b c → s a c) {as bs xs : List α} {n : ℕ} (has : as.Pairwise s)
    (hbs : bs.Pairwise s) (hstrict : ∀ ys : List α, ys.Perm (as ++ bs) → ys.Pairwise s → ys.Pairwise r)
    (hxs : xs.Pairwise r) (hmem : ∀ a, a ∈ xs ↔ a ∈ as ∨ a ∈ bs) :
    MergeTake.mergeTake s (as.take n) (bs.take n) n = xs.take n := by
  rw [MergeTake.mergeTake_take s as bs n n n le_rfl le_rfl, MergeTake.mergeTake_eq]
  have hperm : (List.merge as bs fun a b => s a b).Perm (as ++ bs) :=
    List.merge_perm_append (fun a b => decide (s a b))
  have hsorted := MergeTake.pairwise_merge s htotal htrans has hbs
  congr 1
  apply eq_of_mem_iff hasymm (hstrict _ hperm hsorted) hxs
  intro a
  rw [hmem, hperm.mem_iff, List.mem_append]

end StrictOrder
