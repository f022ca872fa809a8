import Mathlib.Algebra.BigOperators.Ring.Finset
import Mathlib.Algebra.Order.BigOperators.Group.Finset
import Mathlib.Data.Int.Order.Basic
import Mathlib.Tactic.Linarith
import Mathlib.Tactic.Ring

/-!
# The Space-Saving top-K, in batches

At most `cap` keys are kept with a count each. A batch of keys with their numbers is merged at once: a key
that is new to a full top-K starts from the lowest count kept, and then only the `cap` keys with the most
are kept. What is kept never counts a key too low, never adds up to more than all that was merged, and holds
every key that makes up more than a `cap`-th of it.
-/

namespace SpaceSaving

variable {K : Type*}

/-- The counts of the keys that are kept. Other keys count nothing. -/
@[ext]
structure Counts (K : Type*) where
  keys : Finset K
  count : K → ℤ
  absent : ∀ k, k ∉ keys → count k = 0

/-- The counts of no keys. -/
def Counts.empty : Counts K := ⟨∅, fun _ => 0, fun _ _ => rfl⟩

/-- The total of all counts. -/
def Counts.sum (counts : Counts K) : ℤ := ∑ k ∈ counts.keys, counts.count k

/-- Every key that is kept counts something. -/
def Counts.Positive (counts : Counts K) : Prop := ∀ k ∈ counts.keys, 0 < counts.count k

/-- No count is negative. -/
theorem Counts.Positive.nonneg {counts : Counts K} (h : counts.Positive) (k : K) : 0 ≤ counts.count k := by
  by_cases hk : k ∈ counts.keys
  · exact (h k hk).le
  · rw [counts.absent k hk]

/-- Counts do not add up to less than nothing. -/
theorem Counts.Positive.sum_nonneg {counts : Counts K} (h : counts.Positive) : 0 ≤ counts.sum :=
  Finset.sum_nonneg fun k _ => h.nonneg k

/-- Positive counts are told apart by what they count. -/
theorem Counts.Positive.eq {a b : Counts K} (ha : a.Positive) (hb : b.Positive) (h : a.count = b.count) : a = b := by
  refine Counts.ext (Finset.ext fun k => ?_) h
  constructor
  · intro hk
    by_contra hnot
    exact absurd (h ▸ ha k hk) (by rw [b.absent k hnot]; exact lt_irrefl 0)
  · intro hk
    by_contra hnot
    exact absurd (h.symm ▸ hb k hk) (by rw [a.absent k hnot]; exact lt_irrefl 0)

/-- What is kept of totals that add up to `sum`. -/
structure Sound (cap : ℕ) (kept : Counts K) (total : K → ℤ) (sum : ℤ) : Prop where
  card : kept.keys.card ≤ cap
  positive : kept.Positive
  atLeast : ∀ k ∈ kept.keys, total k ≤ kept.count k
  sum : kept.sum ≤ sum
  /-- A key that is not kept was never merged, or has no more than any key of a full top-K. -/
  others : ∀ k, k ∉ kept.keys → total k = 0 ∨ kept.keys.card = cap ∧ ∀ j ∈ kept.keys, total k ≤ kept.count j

/-- Empty counts are sound as long as nothing was merged. -/
theorem Sound.empty (cap : ℕ) : Sound cap (Counts.empty : Counts K) (fun _ => 0) 0 where
  card := Nat.zero_le _
  positive _ hk := absurd hk (Finset.notMem_empty _)
  atLeast _ hk := absurd hk (Finset.notMem_empty _)
  sum := le_rfl
  others _ _ := .inl rfl

/-- A key of more than a `cap`-th of all that was merged is kept. -/
theorem Sound.mem_of_lt {cap : ℕ} {kept : Counts K} {total : K → ℤ} {sum : ℤ} (h : Sound cap kept total sum) {k : K}
    (hk : sum < cap * total k) : k ∈ kept.keys := by
  by_contra hnot
  have hsum := h.positive.sum_nonneg.trans h.sum
  rcases h.others k hnot with hzero | ⟨hfull, hle⟩
  · rw [hzero, mul_zero] at hk
    exact absurd hk (not_lt.2 hsum)
  · have hcard : kept.keys.card • total k ≤ ∑ j ∈ kept.keys, kept.count j :=
      Finset.card_nsmul_le_sum _ _ _ hle
    rw [hfull, nsmul_eq_mul] at hcard
    exact absurd hk (not_lt.2 (hcard.trans h.sum))

section Merge

variable {cap : ℕ} {kept batch after : Counts K} {floor : ℤ}

/-- Where a key that is new starts: from nothing, or from the lowest count of a full top-K. -/
structure IsFloor (cap : ℕ) (kept : Counts K) (floor : ℤ) : Prop where
  zero : kept.keys.card < cap → floor = 0
  lowest : cap ≤ kept.keys.card → (∃ j ∈ kept.keys, floor = kept.count j) ∧ ∀ j ∈ kept.keys, floor ≤ kept.count j

/-- The floor is never negative. -/
theorem IsFloor.nonneg (h : IsFloor cap kept floor) (hkept : kept.Positive) : 0 ≤ floor := by
  by_cases hfull : cap ≤ kept.keys.card
  · obtain ⟨⟨j, hj, rfl⟩, -⟩ := h.lowest hfull
    exact (hkept j hj).le
  · exact (h.zero (not_le.1 hfull)).ge

variable [DecidableEq K]

/-- A batch's numbers on top of the counts kept. -/
def mergedCount (kept batch : Counts K) (floor : ℤ) (k : K) : ℤ :=
  if k ∈ kept.keys then kept.count k + batch.count k
  else if k ∈ batch.keys then floor + batch.count k else 0

/-- What is kept once a batch is merged: `cap` keys that no other key exceeds, or all of them. -/
structure IsMerge (cap : ℕ) (kept batch after : Counts K) : Prop where
  floor : ∃ floor, IsFloor cap kept floor ∧ (∀ k ∈ after.keys, after.count k = mergedCount kept batch floor k) ∧
    ∀ k ∈ (kept.keys ∪ batch.keys) \ after.keys, ∀ j ∈ after.keys,
      mergedCount kept batch floor k ≤ mergedCount kept batch floor j
  subset : after.keys ⊆ kept.keys ∪ batch.keys
  card : after.keys.card = min cap (kept.keys ∪ batch.keys).card

/-- Every merged key counts at least the floor. -/
theorem IsFloor.le_mergedCount (h : IsFloor cap kept floor) (hkept : kept.Positive) (hbatch : batch.Positive) {k : K}
    (hk : k ∈ kept.keys ∪ batch.keys) : floor ≤ mergedCount kept batch floor k := by
  unfold mergedCount
  split
  next hmem =>
    have hnonneg := hbatch.nonneg k
    by_cases hfull : cap ≤ kept.keys.card
    · exact ((h.lowest hfull).2 k hmem).trans (le_add_of_nonneg_right hnonneg)
    · rw [h.zero (not_le.1 hfull)]
      exact add_nonneg (hkept k hmem).le hnonneg
  next hnew =>
    rw [if_pos ((Finset.mem_union.1 hk).resolve_left hnew)]
    exact le_add_of_nonneg_right (hbatch.nonneg k)

/-- The merged counts add up to both sides' counts and one floor for each key that is new. -/
theorem sum_mergedCount : ∑ k ∈ kept.keys ∪ batch.keys, mergedCount kept batch floor k =
    kept.sum + batch.sum + (batch.keys \ kept.keys).card * floor := by
  have hsplit : ∀ k ∈ kept.keys ∪ batch.keys, mergedCount kept batch floor k =
      kept.count k + batch.count k + if k ∈ batch.keys \ kept.keys then floor else 0 := by
    intro k hk
    unfold mergedCount
    by_cases hmem : k ∈ kept.keys
    · rw [if_pos hmem, if_neg (fun h => (Finset.mem_sdiff.1 h).2 hmem), add_zero]
    · have hnew := (Finset.mem_union.1 hk).resolve_left hmem
      rw [if_neg hmem, if_pos hnew, if_pos (Finset.mem_sdiff.2 ⟨hnew, hmem⟩), kept.absent k hmem]
      ring
  have hkept : ∑ k ∈ kept.keys ∪ batch.keys, kept.count k = kept.sum :=
    (Finset.sum_subset Finset.subset_union_left fun k _ hk => kept.absent k hk).symm
  have hbatch : ∑ k ∈ kept.keys ∪ batch.keys, batch.count k = batch.sum :=
    (Finset.sum_subset Finset.subset_union_right fun k _ hk => batch.absent k hk).symm
  have hnew : (kept.keys ∪ batch.keys).filter (· ∈ batch.keys \ kept.keys) = batch.keys \ kept.keys := by
    ext k
    simp only [Finset.mem_filter, Finset.mem_union, Finset.mem_sdiff]
    tauto
  rw [Finset.sum_congr rfl hsplit, Finset.sum_add_distrib, Finset.sum_add_distrib, hkept, hbatch,
    ← Finset.sum_filter, hnew, Finset.sum_const, nsmul_eq_mul]

/-- Every merged key counts at least one. -/
theorem mergedCount_pos (h : IsFloor cap kept floor) (hkept : kept.Positive) (hbatch : batch.Positive) {k : K}
    (hk : k ∈ kept.keys ∪ batch.keys) : 0 < mergedCount kept batch floor k := by
  unfold mergedCount
  split
  next hmem => exact add_pos_of_pos_of_nonneg (hkept k hmem) (hbatch.nonneg k)
  next hnew =>
    have hmem := (Finset.mem_union.1 hk).resolve_left hnew
    rw [if_pos hmem]
    exact add_pos_of_nonneg_of_pos (h.nonneg hkept) (hbatch k hmem)

/-- Once keys are dropped, the top-K is full. -/
theorem IsMerge.full (h : IsMerge cap kept batch after) {k : K} (hk : k ∈ (kept.keys ∪ batch.keys) \ after.keys) :
    after.keys.card = cap := by
  obtain ⟨hmem, hnot⟩ := Finset.mem_sdiff.1 hk
  have hlt : after.keys.card < (kept.keys ∪ batch.keys).card :=
    Finset.card_lt_card ⟨h.subset, fun hsub => hnot (hsub hmem)⟩
  have hcard := h.card
  omega

/-- Each new key of a full top-K takes the place of a key with at least the floor. -/
theorem IsMerge.new_mul_floor_le (h : IsMerge cap kept batch after) (hfloor : IsFloor cap kept floor)
    (hcard : kept.keys.card ≤ cap) :
    ((batch.keys \ kept.keys).card : ℤ) * floor = ((kept.keys ∪ batch.keys) \ after.keys).card * floor := by
  by_cases hfull : cap ≤ kept.keys.card
  · have hunion : (kept.keys ∪ batch.keys).card = kept.keys.card + (batch.keys \ kept.keys).card := by
      rw [← Finset.union_sdiff_self_eq_union, Finset.card_union_of_disjoint Finset.disjoint_sdiff]
    have hevicted := Finset.card_sdiff_of_subset h.subset
    have hafter := h.card
    have heq : (batch.keys \ kept.keys).card = ((kept.keys ∪ batch.keys) \ after.keys).card := by omega
    rw [heq]
  · rw [hfloor.zero (not_le.1 hfull), mul_zero, mul_zero]

/-- Merging a batch keeps what is kept sound. -/
theorem Sound.merge {total : K → ℤ} {sum : ℤ} (h : Sound cap kept total sum) (hbatch : batch.Positive)
    (hmerge : IsMerge cap kept batch after) :
    Sound cap after (fun k => total k + batch.count k) (sum + batch.sum) := by
  obtain ⟨floor, hfloor, hcount, hevicted⟩ := hmerge.floor
  have hnonneg := hfloor.nonneg h.positive
  -- A key that was not kept had no more than the floor.
  have hothers : ∀ k, k ∉ kept.keys → total k ≤ floor := by
    intro k hk
    rcases h.others k hk with hzero | ⟨hfull, hle⟩
    · exact hzero ▸ hnonneg
    · obtain ⟨⟨j, hj, hfloor⟩, -⟩ := hfloor.lowest hfull.ge
      exact hfloor ▸ hle j hj
  have htotal : ∀ k ∈ kept.keys ∪ batch.keys, total k + batch.count k ≤ mergedCount kept batch floor k := by
    intro k hk
    unfold mergedCount
    split
    next hmem => exact add_le_add_left (h.atLeast k hmem) _
    next hnew =>
      rw [if_pos ((Finset.mem_union.1 hk).resolve_left hnew)]
      exact add_le_add_left (hothers k hnew) _
  refine ⟨hmerge.card ▸ min_le_left _ _, fun k hk => ?_, fun k hk => ?_, ?_, fun k hk => ?_⟩
  · rw [hcount k hk]
    exact mergedCount_pos hfloor h.positive hbatch (hmerge.subset hk)
  · rw [hcount k hk]
    exact htotal k (hmerge.subset hk)
  · have hafter : after.sum = ∑ k ∈ after.keys, mergedCount kept batch floor k := Finset.sum_congr rfl hcount
    have hsplit := Finset.sum_sdiff (f := mergedCount kept batch floor) hmerge.subset
    have hdropped : (((kept.keys ∪ batch.keys) \ after.keys).card : ℤ) * floor ≤
        ∑ k ∈ (kept.keys ∪ batch.keys) \ after.keys, mergedCount kept batch floor k := by
      rw [← nsmul_eq_mul]
      exact Finset.card_nsmul_le_sum _ _ _ fun k hk =>
        hfloor.le_mergedCount h.positive hbatch (Finset.mem_sdiff.1 hk).1
    rw [sum_mergedCount, hmerge.new_mul_floor_le hfloor h.card] at hsplit
    rw [hafter]
    have hsum := h.sum
    linarith
  · by_cases hmem : k ∈ kept.keys ∪ batch.keys
    · have hk' := Finset.mem_sdiff.2 ⟨hmem, hk⟩
      refine .inr ⟨hmerge.full hk', fun j hj => ?_⟩
      rw [hcount j hj]
      exact (htotal k hmem).trans (hevicted k hk' j hj)
    · obtain ⟨hold, hnew⟩ := not_or.1 (Finset.mem_union.not.1 hmem)
      rw [batch.absent k hnew, add_zero]
      rcases h.others k hold with hzero | ⟨hfull, -⟩
      · exact .inl hzero
      · have hle := Finset.card_le_card (@Finset.subset_union_left _ _ kept.keys batch.keys)
        refine .inr ⟨by rw [hmerge.card]; omega, fun j hj => ?_⟩
        rw [hcount j hj]
        exact (hothers k hold).trans (hfloor.le_mergedCount h.positive hbatch (hmerge.subset hj))

end Merge

end SpaceSaving
