import Mathlib.Data.List.Sort

/-!
# The first entries of two sorted lists

Merging two sorted lists up to a limit gives the first entries of everything both hold, even if
each list was itself cut at the limit.
-/

namespace MergeTake

variable {α : Type*} (r : α → α → Prop) [DecidableRel r]

/-- Merge two sorted lists, up to `limit` entries. -/
def mergeTake : List α → List α → ℕ → List α
  | _, _, 0 => []
  | [], [], _ + 1 => []
  | a :: as, [], n + 1 => a :: mergeTake as [] n
  | [], b :: bs, n + 1 => b :: mergeTake [] bs n
  | a :: as, b :: bs, n + 1 =>
    if r a b then a :: mergeTake as (b :: bs) n else b :: mergeTake (a :: as) bs n

/-- `top` is the first `limit` entries of all, in order. Entries that tie may come either way. -/
def IsTop (limit : ℕ) (all top : List α) : Prop :=
  ∃ rest, (top ++ rest).Perm all ∧ (top ++ rest).Pairwise r ∧ top.length = min limit all.length

/-- Cutting the lists at the limit changes nothing. -/
theorem mergeTake_take (as bs : List α) (n k m : ℕ) (hk : n ≤ k) (hm : n ≤ m) :
    mergeTake r (as.take k) (bs.take m) n = mergeTake r as bs n := by
  induction n generalizing as bs k m with
  | zero => simp [mergeTake]
  | succ n ih =>
    obtain ⟨k, rfl⟩ : ∃ j, k = j + 1 := ⟨k - 1, by omega⟩
    obtain ⟨m, rfl⟩ : ∃ j, m = j + 1 := ⟨m - 1, by omega⟩
    cases as with
    | nil =>
      cases bs with
      | nil => simp
      | cons b bs =>
        have hnext := ih [] bs (k + 1) m (by omega) (by omega)
        simp only [List.take_nil] at hnext
        simp only [List.take_nil, List.take_succ_cons, mergeTake, hnext]
    | cons a as =>
      cases bs with
      | nil =>
        have hnext := ih as [] k (m + 1) (by omega) (by omega)
        simp only [List.take_nil] at hnext
        simp only [List.take_nil, List.take_succ_cons, mergeTake, hnext]
      | cons b bs =>
        have hleft := ih as (b :: bs) k (m + 1) (by omega) (by omega)
        have hright := ih (a :: as) bs (k + 1) m (by omega) (by omega)
        simp only [List.take_succ_cons] at hleft hright
        simp only [List.take_succ_cons, mergeTake, hleft, hright]

/-- Merging up to a limit takes that many entries of the whole merge. -/
theorem mergeTake_eq (as bs : List α) (n : ℕ) :
    mergeTake r as bs n = (List.merge as bs fun a b => r a b).take n := by
  induction n generalizing as bs with
  | zero => simp [mergeTake]
  | succ n ih =>
    cases as with
    | nil =>
      cases bs with
      | nil => simp [mergeTake]
      | cons b bs => simp [mergeTake, ih]
    | cons a as =>
      cases bs with
      | nil => simp [mergeTake, ih]
      | cons b bs =>
        rw [mergeTake, List.cons_merge_cons]
        by_cases hab : r a b <;> simp [hab, ih]

/-- The merge of two sorted lists is sorted. -/
theorem pairwise_merge (htotal : ∀ a b, r a b ∨ r b a) (htrans : ∀ a b c, r a b → r b c → r a c)
    {as bs : List α} (has : as.Pairwise r) (hbs : bs.Pairwise r) :
    (List.merge as bs fun a b => r a b).Pairwise r := by
  have := @List.pairwise_merge _ (fun a b => decide (r a b))
    (fun a b c hab hbc => by simpa using htrans a b c (by simpa using hab) (by simpa using hbc))
    (fun a b => by simpa using htotal a b) as bs (by simpa using has) (by simpa using hbs)
  simpa using this

/-- The merge of two sorted lists is the first entries of both. -/
theorem mergeTake_isTop (htotal : ∀ a b, r a b ∨ r b a) (htrans : ∀ a b c, r a b → r b c → r a c)
    (as bs : List α) (n : ℕ) (has : as.Pairwise r) (hbs : bs.Pairwise r) :
    IsTop r n (as ++ bs) (mergeTake r as bs n) := by
  have hperm : (List.merge as bs fun a b => r a b).Perm (as ++ bs) :=
    List.merge_perm_append (fun a b => decide (r a b))
  have hsorted := pairwise_merge r htotal htrans has hbs
  refine ⟨(List.merge as bs fun a b => r a b).drop n, ?_, ?_, ?_⟩
  · rw [mergeTake_eq, List.take_append_drop]
    exact hperm
  · rw [mergeTake_eq, List.take_append_drop]
    exact hsorted
  · rw [mergeTake_eq, List.length_take, hperm.length_eq]

/-- Sorting two lists, cutting each at the limit and merging them gives the first entries of
both. -/
theorem mergeTake_sorted_isTop (htotal : ∀ a b, r a b ∨ r b a)
    (htrans : ∀ a b c, r a b → r b c → r a c) (as bs : List α) (n : ℕ) :
    IsTop r n (as ++ bs)
      (mergeTake r ((as.insertionSort r).take n) ((bs.insertionSort r).take n) n) := by
  have : Std.Total r := ⟨htotal⟩
  have : IsTrans α r := ⟨htrans⟩
  obtain ⟨rest, hperm, hsorted, hlength⟩ := mergeTake_isTop r htotal htrans _ _ n
    (List.pairwise_insertionSort r as) (List.pairwise_insertionSort r bs)
  rw [mergeTake_take r _ _ n n n le_rfl le_rfl]
  have hall : (as.insertionSort r ++ bs.insertionSort r).Perm (as ++ bs) :=
    (List.perm_insertionSort r as).append (List.perm_insertionSort r bs)
  exact ⟨rest, hperm.trans hall, hsorted, hlength.trans (by rw [hall.length_eq])⟩

end MergeTake
