import Mathlib.Data.List.Sort
import Mathlib.Data.List.TakeWhile

/-!
# Blocks woven into a list sorted by key

A list sorted by key is determined by what it holds under each key. Rows kept apart in blocks, one
block for each of some keys, are put back by weaving the blocks between the rows of other keys.
The first rows of the woven list are the same whether or not the other rows were first cut at as
many, and a cut leaves every key before its last row's whole.
-/

namespace Weave

variable {α K : Type*} [LinearOrder K] (key : α → K)

/-- The rows are in order of their keys. -/
def Sorted (rows : List α) : Prop := rows.Pairwise fun x y => key x ≤ key y

/-- The rows under one key, in order. -/
def under (rows : List α) (k : K) : List α := rows.filter fun x => key x = k

/-- Put each block before the first row of a key that is not below its own. -/
def weave (rows : List α) : List (K × List α) → List α
  | [] => rows
  | block :: blocks =>
    rows.takeWhile (fun x => key x < block.1) ++ block.2 ++
      weave (rows.dropWhile fun x => key x < block.1) blocks

variable {key}

/-- The rows under a key are those whose key it is. -/
@[simp]
theorem mem_under {rows : List α} {k : K} {x : α} : x ∈ under key rows k ↔ x ∈ rows ∧ key x = k := by
  simp [under]

/-- The rows under a key are picked from each of two lists. -/
theorem under_append (xs ys : List α) (k : K) :
    under key (xs ++ ys) k = under key xs k ++ under key ys k := List.filter_append _ _

/-- No rows stand under a key that none has. -/
theorem under_eq_nil {rows : List α} {k : K} (h : ∀ x ∈ rows, key x ≠ k) :
    under key rows k = [] := by
  simpa [under] using h

/-- A row stands first among those under its own key. -/
theorem under_cons_self (x : α) (rows : List α) :
    under key (x :: rows) (key x) = x :: under key rows (key x) := by simp [under]

/-- A row is not among those under another key. -/
theorem under_cons_of_ne {x : α} {k : K} (h : key x ≠ k) (rows : List α) :
    under key (x :: rows) k = under key rows k := by simp [under, h]

/-- Two sorted lists that hold the same under every key are the same list. -/
theorem Sorted.ext {xs ys : List α} (hxs : Sorted key xs) (hys : Sorted key ys)
    (hunder : ∀ k, under key xs k = under key ys k) : xs = ys := by
  induction xs generalizing ys with
  | nil =>
    cases ys with
    | nil => rfl
    | cons y ys =>
      have := hunder (key y)
      rw [under_cons_self] at this
      simp [under] at this
  | cons x xs ih =>
    obtain ⟨hx, hxs⟩ := List.pairwise_cons.mp hxs
    cases ys with
    | nil =>
      have := hunder (key x)
      rw [under_cons_self] at this
      simp [under] at this
    | cons y ys =>
      obtain ⟨hy, hysTail⟩ := List.pairwise_cons.mp hys
      -- each head's key occurs in the other list, so neither is below the other
      have hle : ∀ {a b : α} {as bs : List α}, (∀ c ∈ bs, key b ≤ key c) →
          under key (a :: as) (key a) = under key (b :: bs) (key a) → key b ≤ key a := by
        intro a b as bs hb h
        have hmem : a ∈ under key (b :: bs) (key a) := by
          rw [← h, under_cons_self]
          exact List.mem_cons_self
        rcases List.mem_cons.mp (mem_under.mp hmem).1 with rfl | hin
        · exact le_rfl
        · exact hb a hin
      have heq : key x = key y :=
        le_antisymm (hle hx (hunder (key y)).symm) (hle hy (hunder (key x)))
      have hhead := hunder (key x)
      rw [under_cons_self, heq, under_cons_self] at hhead
      obtain ⟨rfl, htail⟩ := List.cons.inj hhead
      have hrest : ∀ k, under key xs k = under key ys k := by
        intro k
        by_cases hk : key x = k
        · rw [← hk]
          exact htail
        · have := hunder k
          rwa [under_cons_of_ne hk, under_cons_of_ne hk] at this
      rw [ih hxs hysTail hrest]

/-- Weaving adds the blocks' rows to the rows, and loses none. -/
theorem mem_weave {rows : List α} {blocks : List (K × List α)} {x : α} :
    x ∈ weave key rows blocks ↔ x ∈ rows ∨ ∃ block ∈ blocks, x ∈ block.2 := by
  induction blocks generalizing rows with
  | nil => simp [weave]
  | cons block blocks ih =>
    have hrows : x ∈ rows ↔ x ∈ rows.takeWhile (fun x => key x < block.1) ∨
        x ∈ rows.dropWhile (fun x => key x < block.1) := by
      rw [← List.mem_append, List.takeWhile_append_dropWhile]
    simp only [weave, List.mem_append, ih, List.mem_cons, exists_eq_or_imp, hrows]
    tauto

/-- Under a key that no block has rows of, the woven list holds what the rows do. -/
theorem under_weave_of_rows {rows : List α} {blocks : List (K × List α)} {k : K}
    (h : ∀ block ∈ blocks, ∀ x ∈ block.2, key x ≠ k) :
    under key (weave key rows blocks) k = under key rows k := by
  induction blocks generalizing rows with
  | nil => rfl
  | cons block blocks ih =>
    have hblock : under key block.2 k = [] := under_eq_nil (h block List.mem_cons_self)
    rw [weave, under_append, under_append, hblock,
      ih fun b hb => h b (List.mem_cons_of_mem _ hb), List.append_nil, ← under_append,
      List.takeWhile_append_dropWhile]

/-- Under a key that no row has, the woven list holds what the blocks do. -/
theorem under_weave_of_blocks {rows : List α} {blocks : List (K × List α)} {k : K}
    (h : ∀ x ∈ rows, key x ≠ k) :
    under key (weave key rows blocks) k = under key (blocks.flatMap Prod.snd) k := by
  induction blocks generalizing rows with
  | nil => exact under_eq_nil h
  | cons block blocks ih =>
    have htake : under key (rows.takeWhile fun x => key x < block.1) k = [] :=
      under_eq_nil fun x hx => h x (List.takeWhile_subset _ hx)
    rw [weave, under_append, under_append, htake, List.nil_append,
      ih fun x hx => h x ((List.dropWhile_suffix _).subset hx), List.flatMap_cons, under_append]

/-- The rows from the first that is not below a key on are not below it. -/
theorem le_of_mem_dropWhile {rows : List α} (hrows : Sorted key rows) {k : K} {x : α}
    (hx : x ∈ rows.dropWhile fun y => key y < k) : k ≤ key x := by
  induction rows with
  | nil => simp at hx
  | cons y rows ih =>
    obtain ⟨hy, hrest⟩ := List.pairwise_cons.mp hrows
    by_cases hlt : key y < k
    · rw [List.dropWhile_cons_of_pos (by simpa using hlt)] at hx
      exact ih hrest hx
    · rw [List.dropWhile_cons_of_neg (by simpa using hlt)] at hx
      rcases List.mem_cons.mp hx with rfl | hx
      · exact not_lt.mp hlt
      · exact (not_lt.mp hlt).trans (hy x hx)

/-- Each block's rows have its key, and the blocks come in increasing order of their keys. -/
structure Blocks (key : α → K) (blocks : List (K × List α)) : Prop where
  key_eq : ∀ block ∈ blocks, ∀ x ∈ block.2, key x = block.1
  increasing : blocks.Pairwise fun a b => a.1 < b.1

/-- What is left of the blocks still has one block for each key. -/
theorem Blocks.tail {block : K × List α} {blocks : List (K × List α)}
    (h : Blocks key (block :: blocks)) : Blocks key blocks :=
  ⟨fun b hb => h.key_eq b (List.mem_cons_of_mem _ hb), (List.pairwise_cons.mp h.increasing).2⟩

/-- Blocks that are kept still hold one key each. -/
theorem Blocks.filter {blocks : List (K × List α)} (h : Blocks key blocks)
    (p : K × List α → Bool) : Blocks key (blocks.filter p) :=
  ⟨fun b hb => h.key_eq b (List.mem_of_mem_filter hb), h.increasing.filter p⟩

/-- Weaving sorted blocks into sorted rows gives a sorted list. -/
theorem weave_sorted {rows : List α} {blocks : List (K × List α)} (hrows : Sorted key rows)
    (hblocks : Blocks key blocks) : Sorted key (weave key rows blocks) := by
  induction blocks generalizing rows with
  | nil => exact hrows
  | cons block blocks ih =>
    have hbefore : ∀ x ∈ rows.takeWhile (fun x => key x < block.1), key x < block.1 := by
      intro x hx
      simpa using List.mem_takeWhile_imp hx
    have hblock : ∀ x ∈ block.2, key x = block.1 := hblocks.key_eq block List.mem_cons_self
    have hafter : ∀ x ∈ weave key (rows.dropWhile fun x => key x < block.1) blocks,
        block.1 ≤ key x := by
      intro x hx
      rcases mem_weave.mp hx with hx | ⟨b, hb, hx⟩
      · exact le_of_mem_dropWhile hrows hx
      · rw [hblocks.key_eq b (List.mem_cons_of_mem _ hb) x hx]
        exact ((List.pairwise_cons.mp hblocks.increasing).1 b hb).le
    rw [weave, Sorted, List.pairwise_append]
    refine ⟨?_, ih (hrows.sublist (List.dropWhile_sublist _)) hblocks.tail, ?_⟩
    · rw [List.pairwise_append]
      refine ⟨hrows.sublist (List.takeWhile_sublist _), ?_, fun x hx y hy => ?_⟩
      · exact List.pairwise_iff_forall_sublist.mpr fun {a b} hab => by
          rw [hblock a (hab.subset (by simp)), hblock b (hab.subset (by simp))]
      · rw [hblock y hy]
        exact (hbefore x hx).le
    · intro x hx y hy
      rcases List.mem_append.mp hx with hx | hx
      · exact (hbefore x hx).le.trans (hafter y hy)
      · rw [hblock x hx]
        exact hafter y hy

/-- Weaving puts a sorted list together again from the blocks under some keys and the rows under
the others. -/
theorem weave_eq {whole rows : List α} {blocks : List (K × List α)} (hwhole : Sorted key whole)
    (hrows : Sorted key rows) (hblocks : Blocks key blocks)
    (hunder : ∀ block ∈ blocks, under key rows block.1 = [] ∧ block.2 = under key whole block.1)
    (hother : ∀ k, (∀ block ∈ blocks, block.1 ≠ k) → under key rows k = under key whole k) :
    weave key rows blocks = whole := by
  refine (weave_sorted hrows hblocks).ext hwhole fun k => ?_
  by_cases hk : ∃ block ∈ blocks, block.1 = k
  · obtain ⟨block, hblock, rfl⟩ := hk
    have hnone : ∀ x ∈ rows, key x ≠ block.1 := by
      intro x hx hkey
      have : x ∈ under key rows block.1 := mem_under.mpr ⟨hx, hkey⟩
      rw [(hunder block hblock).1] at this
      simp at this
    rw [under_weave_of_blocks hnone]
    -- among the blocks only this one has rows of its key
    obtain ⟨before, after, rfl⟩ := List.append_of_mem hblock
    have hincreasing := List.pairwise_append.mp hblocks.increasing
    have hbefore : under key (before.flatMap Prod.snd) block.1 = [] := by
      refine under_eq_nil fun x hx => ?_
      obtain ⟨b, hb, hx⟩ := List.mem_flatMap.mp hx
      rw [hblocks.key_eq b (List.mem_append_left _ hb) x hx]
      exact (hincreasing.2.2 b hb block List.mem_cons_self).ne
    have hafter : under key (after.flatMap Prod.snd) block.1 = [] := by
      refine under_eq_nil fun x hx => ?_
      obtain ⟨b, hb, hx⟩ := List.mem_flatMap.mp hx
      rw [hblocks.key_eq b (List.mem_append_right _ (List.mem_cons_of_mem _ hb)) x hx]
      exact ((List.pairwise_cons.mp hincreasing.2.1).1 b hb).ne'
    have hself : under key block.2 block.1 = block.2 :=
      List.filter_eq_self.mpr fun x hx => by simpa using hblocks.key_eq block hblock x hx
    rw [List.flatMap_append, List.flatMap_cons, under_append, under_append, hbefore, hafter, hself,
      List.nil_append, List.append_nil]
    exact (hunder block hblock).2
  · push Not at hk
    rw [under_weave_of_rows fun block hblock x hx => by
      rw [hblocks.key_eq block hblock x hx]
      exact hk block hblock]
    exact hother k hk

/-- Rows past a cut do not reach the part of the woven list before it. -/
theorem weave_take (rows : List α) (blocks : List (K × List α)) (n m : ℕ) (hmn : m ≤ n) :
    (weave key (rows.take n) blocks).take m = (weave key rows blocks).take m := by
  induction blocks generalizing rows n m with
  | nil => simp [weave, List.take_take, hmn]
  | cons block blocks ih =>
    have hcut : ∀ (xs : List α) (n : ℕ), (xs.take n).takeWhile (fun x => key x < block.1) =
        (xs.takeWhile fun x => key x < block.1).take n ∧
        (xs.take n).dropWhile (fun x => key x < block.1) =
          (xs.dropWhile fun x => key x < block.1).take
            (n - (xs.takeWhile fun x => key x < block.1).length) := by
      intro xs n
      induction xs generalizing n with
      | nil => simp
      | cons x xs ih =>
        cases n with
        | zero => simp
        | succ n =>
          obtain ⟨htake, hdrop⟩ := ih n
          by_cases hx : key x < block.1 <;> simp_all
    obtain ⟨htake, hdrop⟩ := hcut rows n
    simp only [weave, htake, hdrop, List.append_assoc]
    generalize rows.takeWhile (fun x => key x < block.1) = before
    by_cases hlong : n ≤ before.length
    · have hshort : (before.take n).length = n := by simp [hlong]
      rw [List.take_append_of_le_length (by omega), List.take_append_of_le_length (by omega),
        List.take_take, min_eq_left hmn]
    · rw [List.take_of_length_le (by omega : before.length ≤ n), List.take_append, List.take_append,
        List.take_append, List.take_append, ih _ _ _ (by omega)]

/-- A cut at some length leaves whole what stands under a key below its last row's. -/
theorem under_take_of_lt {rows : List α} (hrows : Sorted key rows) {n : ℕ} {k : K} {last : α}
    (hlast : (rows.take n).getLast? = some last) (hk : k < key last) :
    under key (rows.take n) k = under key rows k := by
  have hrest : under key (rows.drop n) k = [] := by
    refine under_eq_nil fun x hx => ?_
    have hsorted := hrows
    rw [← List.take_append_drop n rows] at hsorted
    have hle := (List.pairwise_append.mp hsorted).2.2 last (List.mem_of_getLast? hlast) x hx
    exact (hk.trans_le hle).ne'
  calc under key (rows.take n) k
      = under key (rows.take n) k ++ under key (rows.drop n) k := by rw [hrest, List.append_nil]
    _ = under key rows k := by rw [← under_append, List.take_append_drop]

end Weave
