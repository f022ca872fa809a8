import Mathlib.Data.List.Nodup
import Mathlib.Data.List.Pairwise
import Mathlib.Data.List.Perm.Basic

/-!
# Generations of things that name a parent

Each of a list of things has a name and names a parent. The roots name none of the list, and each
generation is the things that name one of the last generation as their parent, once for each thing of
it they name. The generations hold every thing once, and end, exactly when every thing but a root
names one thing and following parents comes to a root.
-/

namespace SolidTrace.Lib

section Descend

variable {α : Type*} (children : α → List α)

/-- The `n`th generation after `first`. -/
def descend : ℕ → List α → List α
  | 0, first => first
  | n + 1, first => descend n (first.flatMap children)

/-- The first `n` generations. -/
def generations : ℕ → List α → List α
  | 0, _ => []
  | n + 1, first => first ++ generations n (first.flatMap children)

variable {children}

/-- One generation more is the children of the last. -/
theorem descend_succ (n : ℕ) (first : List α) :
    descend children (n + 1) first = (descend children n first).flatMap children := by
  induction n generalizing first with
  | zero => rfl
  | succ n ih => rw [descend, ih]; rfl

/-- Two lists of ancestors have the descendants of each. -/
theorem descend_append (n : ℕ) (first second : List α) :
    descend children n (first ++ second) =
      descend children n first ++ descend children n second := by
  induction n generalizing first second with
  | zero => rfl
  | succ n ih => rw [descend, List.flatMap_append, ih]; rfl

/-- The order of the ancestors does not matter to who descends from them. -/
theorem descend_perm {first second : List α} (hperm : first.Perm second) (n : ℕ) :
    (descend children n first).Perm (descend children n second) := by
  induction n generalizing first second with
  | zero => exact hperm
  | succ n ih => exact ih (hperm.flatMap_right children)

/-- The order of the ancestors does not matter to all generations together. -/
theorem generations_perm {first second : List α} (hperm : first.Perm second) (n : ℕ) :
    (generations children n first).Perm (generations children n second) := by
  induction n generalizing first second with
  | zero => exact .refl _
  | succ n ih => exact hperm.append (ih (hperm.flatMap_right children))

/-- The generations of two lists are the generations of each, in some order. -/
theorem generations_append (n : ℕ) (first second : List α) :
    (generations children n (first ++ second)).Perm
      (generations children n first ++ generations children n second) := by
  induction n generalizing first second with
  | zero => exact .refl _
  | succ n ih =>
    rw [generations, List.flatMap_append]
    have hrest := ih (first.flatMap children) (second.flatMap children)
    apply (hrest.append_left (first ++ second)).trans
    simp only [generations, List.append_assoc]
    apply List.Perm.append_left
    apply List.Perm.trans (List.perm_append_comm_assoc _ _ _)
    exact .refl _

/-- To be in the first generations is to descend from the first by fewer steps. -/
theorem mem_generations {n : ℕ} {first : List α} {a : α} :
    a ∈ generations children n first ↔ ∃ i < n, a ∈ descend children i first := by
  induction n generalizing first with
  | zero => simp [generations]
  | succ n ih =>
    rw [generations, List.mem_append, ih]
    constructor
    · intro h
      cases h with
      | inl hfirst => exact ⟨0, by omega, hfirst⟩
      | inr hlater =>
        obtain ⟨i, hi, hmem⟩ := hlater
        exact ⟨i + 1, by omega, hmem⟩
    · intro ⟨i, hi, hmem⟩
      cases i with
      | zero => exact Or.inl hmem
      | succ i => exact Or.inr ⟨i, by omega, hmem⟩

/-- Generations that repeat nothing, and share nothing, repeat nothing together. -/
theorem nodup_generations {n : ℕ} {first : List α}
    (hnodup : ∀ i < n, (descend children i first).Nodup)
    (hapart : ∀ i j a, a ∈ descend children i first → a ∈ descend children j first → i = j) :
    (generations children n first).Nodup := by
  induction n generalizing first with
  | zero => exact List.nodup_nil
  | succ n ih =>
    apply List.nodup_append.mpr
    refine ⟨hnodup 0 (by omega), ih (fun i hi => hnodup (i + 1) (by omega)) ?_, ?_⟩
    · intro i j a hi hj
      have hsame := hapart (i + 1) (j + 1) a hi hj
      omega
    · intro a ha b hb hsame
      subst hsame
      obtain ⟨i, -, hmem⟩ := mem_generations.mp hb
      have hzero := hapart 0 (i + 1) a ha hmem
      omega

/-- A list of generations that repeats nothing repeats nothing in each, and shares nothing. -/
theorem nodup_descend {n : ℕ} {first : List α} (hnodup : (generations children n first).Nodup)
    {i : ℕ} (hi : i < n) : (descend children i first).Nodup := by
  induction n generalizing first i with
  | zero => omega
  | succ n ih =>
    have hparts := List.nodup_append.mp hnodup
    cases i with
    | zero => exact hparts.1
    | succ i => exact ih hparts.2.1 (by omega)

/-- Where no one appears twice, everyone descends by one number of steps only. -/
theorem eq_of_mem_descend {n : ℕ} {first : List α} (hnodup : (generations children n first).Nodup)
    {i j : ℕ} (hi : i < n) (hj : j < n) {a : α} (hai : a ∈ descend children i first)
    (haj : a ∈ descend children j first) : i = j := by
  induction n generalizing first i j with
  | zero => omega
  | succ n ih =>
    have hparts := List.nodup_append.mp hnodup
    cases i with
    | zero =>
      cases j with
      | zero => rfl
      | succ j =>
        have hlater : a ∈ generations children n (first.flatMap children) :=
          mem_generations.mpr ⟨j, by omega, haj⟩
        exact absurd rfl (hparts.2.2 a hai a hlater)
    | succ i =>
      cases j with
      | zero =>
        have hlater : a ∈ generations children n (first.flatMap children) :=
          mem_generations.mpr ⟨i, by omega, hai⟩
        exact absurd rfl (hparts.2.2 a haj a hlater)
      | succ j => rw [ih hparts.2.1 (by omega) (by omega) hai haj]

/-- No ancestors, no descendants. -/
theorem descend_nil (n : ℕ) : descend children n [] = [] := by
  induction n with
  | zero => rfl
  | succ n ih => exact ih

/-- No ancestors, no generations. -/
theorem generations_nil (n : ℕ) : generations children n [] = [] := by
  induction n with
  | zero => rfl
  | succ n ih => exact ih

/-- Once there is no generation there is none after it. -/
theorem descend_eq_nil_of_le {m n : ℕ} {first : List α} (hmn : m ≤ n)
    (hnone : descend children m first = []) : descend children n first = [] := by
  induction n with
  | zero => rwa [Nat.le_zero.mp hmn] at hnone
  | succ n ih =>
    by_cases hm : m = n + 1
    · rwa [hm] at hnone
    · rw [descend_succ, ih (by omega), List.flatMap_nil]

/-- Nor do more generations hold more. -/
theorem generations_eq_of_le {m n : ℕ} {first : List α} (hmn : m ≤ n)
    (hnone : descend children m first = []) :
    generations children n first = generations children m first := by
  induction m generalizing n first with
  | zero =>
    have hfirst : first = [] := hnone
    rw [hfirst, generations_nil, generations_nil]
  | succ m ih =>
    cases n with
    | zero => omega
    | succ n => rw [generations, generations, ih (by omega) hnone]

end Descend

section Parents

variable {α K : Type*} [DecidableEq K] (name parent : α → K) (things : List α)

/-- The things that name a thing as their parent. -/
def childrenOf (a : α) : List α := things.filter fun b => parent b = name a

/-- The things whose parent isn't among them. -/
def rootsOf : List α := things.filter fun a => parent a ∉ things.map name

/-- A thing `n` parents below a root. -/
inductive Below : ℕ → α → Prop
  | root {a : α} : a ∈ things → parent a ∉ things.map name → Below 0 a
  | child {n : ℕ} {a b : α} : Below n a → b ∈ things → parent b = name a → Below (n + 1) b

/-- Every thing but a root names one thing as its parent, and following parents comes to a root. -/
structure WellParented : Prop where
  one : ∀ a ∈ things, parent a ∈ things.map name → (things.map name).count (parent a) = 1
  below : ∀ a ∈ things, ∃ n, Below name parent things n a

variable {name parent things}

omit [DecidableEq K] in
/-- What stands below a root is one of the things. -/
theorem Below.mem {n : ℕ} {a : α} (hbelow : Below name parent things n a) : a ∈ things := by
  cases hbelow with
  | root hmem _ => exact hmem
  | child _ hmem _ => exact hmem

/-- Descending from the roots step by step is standing below one at that depth. -/
theorem mem_descend_iff {n : ℕ} {a : α} :
    a ∈ descend (childrenOf name parent things) n (rootsOf name parent things) ↔
      Below name parent things n a := by
  induction n generalizing a with
  | zero =>
    simp only [descend, rootsOf, List.mem_filter, decide_eq_true_eq]
    constructor
    · intro hroot
      exact .root hroot.1 hroot.2
    · intro hbelow
      cases hbelow with
      | root hmem hparent => exact ⟨hmem, hparent⟩
  | succ n ih =>
    simp only [descend_succ, List.mem_flatMap, childrenOf, List.mem_filter, decide_eq_true_eq]
    constructor
    · intro ⟨b, hb, hmem, hparent⟩
      exact .child (ih.mp hb) hmem hparent
    · intro hbelow
      cases hbelow with
      | child hlast hmem hparent => exact ⟨_, ih.mpr hlast, hmem, hparent⟩

/-- Two things with one name that is named once are one thing. -/
theorem eq_of_count_eq_one {things : List α} {a b : α} (ha : a ∈ things) (hb : b ∈ things)
    (hname : name a = name b) (hone : (things.map name).count (name a) = 1) : a = b := by
  induction things with
  | nil => simp at ha
  | cons first rest ih =>
    rw [List.map_cons, List.count_cons] at hone
    have hnone (other : α) (hother : other ∈ rest) (hsame : name other = name a) :
        name first ≠ name a := by
      intro hfirst
      have hpos : 0 < (rest.map name).count (name a) :=
        List.count_pos_iff.mpr (List.mem_map.mpr ⟨other, hother, hsame⟩)
      simp only [hfirst, beq_self_eq_true, if_true] at hone
      omega
    cases List.mem_cons.mp ha with
    | inl hafirst =>
      cases List.mem_cons.mp hb with
      | inl hbfirst => rw [hafirst, hbfirst]
      | inr hbrest => exact absurd (by rw [hafirst]) (hnone b hbrest hname.symm)
    | inr harest =>
      cases List.mem_cons.mp hb with
      | inl hbfirst => exact absurd (by rw [hname, hbfirst]) (hnone a harest rfl)
      | inr hbrest =>
        have hfirst := hnone a harest rfl
        simp only [beq_iff_eq, hfirst, if_false, Nat.add_zero] at hone
        exact ih harest hbrest hone

namespace WellParented

variable (hwell : WellParented name parent things)
include hwell

/-- Where names are unique a thing has one parent at most. -/
theorem parent_unique {a b c : α} (hc : c ∈ things) (ha : a ∈ things) (hb : b ∈ things)
    (hca : parent c = name a) (hcb : parent c = name b) : a = b := by
  have hone := hwell.one c hc (hca ▸ List.mem_map_of_mem ha)
  exact eq_of_count_eq_one ha hb (hca.symm.trans hcb) (hca ▸ hone)

/-- Where names are unique a thing stands at one depth only. -/
theorem below_unique {m n : ℕ} {a : α} (hm : Below name parent things m a)
    (hn : Below name parent things n a) : m = n := by
  induction hm generalizing n with
  | root hmem hparent =>
    cases hn with
    | root _ _ => rfl
    | child hlast _ hname => exact absurd (hname ▸ List.mem_map_of_mem hlast.mem) hparent
  | child hlast hmem hname ih =>
    cases hn with
    | root _ hparent => exact absurd (hname ▸ List.mem_map_of_mem hlast.mem) hparent
    | child hother _ hsame =>
      rw [hwell.parent_unique hmem hother.mem hlast.mem hsame hname] at hother
      rw [ih hother]

/-- Where names are unique nothing is listed twice in one generation. -/
theorem nodup_descend (hnodup : things.Nodup) (n : ℕ) :
    (descend (childrenOf name parent things) n (rootsOf name parent things)).Nodup := by
  induction n with
  | zero => exact hnodup.filter _
  | succ n ih =>
    rw [descend_succ]
    apply List.nodup_flatMap.mpr
    refine ⟨fun a _ => hnodup.filter _, ?_⟩
    apply List.Pairwise.imp_of_mem _ ih
    intro a b ha hb hne
    change List.Disjoint _ _
    rw [List.disjoint_left]
    intro c hca hcb
    simp only [childrenOf, List.mem_filter, decide_eq_true_eq] at hca hcb
    exact hne (hwell.parent_unique hca.1 (mem_descend_iff.mp ha).mem (mem_descend_iff.mp hb).mem
      hca.2 hcb.2)

/-- There is a generation past every thing's. -/
theorem exists_bound : ∃ bound, ∀ n a, Below name parent things n a → n < bound := by
  have hlist : ∀ list : List α, list ⊆ things →
      ∃ bound, ∀ a ∈ list, ∀ n, Below name parent things n a → n < bound := by
    intro list
    induction list with
    | nil => exact fun _ => ⟨0, by simp⟩
    | cons first rest ih =>
      intro hsubset
      rw [List.cons_subset] at hsubset
      obtain ⟨bound, hbound⟩ := ih hsubset.2
      obtain ⟨depth, hdepth⟩ := hwell.below first hsubset.1
      refine ⟨max bound (depth + 1), ?_⟩
      intro a ha n hn
      cases List.mem_cons.mp ha with
      | inl hfirst =>
        have hsame := hwell.below_unique (hfirst ▸ hn) hdepth
        omega
      | inr hrest =>
        have hlt := hbound a hrest n hn
        omega
  obtain ⟨bound, hbound⟩ := hlist things (List.Subset.refl _)
  exact ⟨bound, fun n a hbelow => hbound a hbelow.mem n hbelow⟩

end WellParented

/-- A list without repeats whose elements are all the same has one at most. -/
theorem length_le_one_of_forall_eq {α : Type*} {list : List α} (hnodup : list.Nodup)
    (hone : ∀ a ∈ list, ∀ b ∈ list, a = b) : list.length ≤ 1 := by
  match list with
  | [] => simp
  | [_] => simp
  | a :: b :: rest =>
    have hsame := hone a (by simp) b (by simp)
    simp [hsame] at hnodup

/-- The generations end and hold every thing once exactly when the things are well parented. -/
theorem generations_perm_iff (hnodup : things.Nodup) :
    (∃ n, descend (childrenOf name parent things) n (rootsOf name parent things) = [] ∧
      (generations (childrenOf name parent things) n (rootsOf name parent things)).Perm things) ↔
      WellParented name parent things := by
  constructor
  · intro ⟨n, hnone, hperm⟩
    have hall : (generations (childrenOf name parent things) n
        (rootsOf name parent things)).Nodup := hperm.nodup_iff.mpr hnodup
    have hbelow {i : ℕ} {a : α} (ha : Below name parent things i a) : i < n := by
      by_contra hle
      have hpast := descend_eq_nil_of_le (Nat.le_of_not_lt hle) hnone
      have hmem := mem_descend_iff.mpr ha
      rw [hpast] at hmem
      exact List.not_mem_nil hmem
    have hfound {a : α} (ha : a ∈ things) : ∃ i, Below name parent things i a := by
      obtain ⟨i, -, hmem⟩ := mem_generations.mp (hperm.mem_iff.mpr ha)
      exact ⟨i, mem_descend_iff.mp hmem⟩
    refine ⟨?_, fun a ha => hfound ha⟩
    intro c hc hparent
    let holders := things.filter fun a => name a = parent c
    have hone : ∀ a ∈ holders, ∀ b ∈ holders, a = b := by
      intro a ha b hb
      simp only [holders, List.mem_filter, decide_eq_true_eq] at ha hb
      obtain ⟨i, hi⟩ := hfound ha.1
      obtain ⟨j, hj⟩ := hfound hb.1
      have hca := Below.child hi hc ha.2.symm
      have hcb := Below.child hj hc hb.2.symm
      have hsame := eq_of_mem_descend hall (hbelow hca) (hbelow hcb) (mem_descend_iff.mpr hca)
        (mem_descend_iff.mpr hcb)
      obtain rfl : i = j := by omega
      have hnext := Lib.nodup_descend hall (hbelow hca)
      rw [descend_succ] at hnext
      by_contra hne
      have hsymm : Std.Symm (Function.onFun List.Disjoint (childrenOf name parent things)) :=
        ⟨fun _ _ hdisjoint _ ha hb => hdisjoint hb ha⟩
      have hapart := (List.nodup_flatMap.mp hnext).2.forall (mem_descend_iff.mpr hi)
        (mem_descend_iff.mpr hj) hne
      have hmemA : c ∈ childrenOf name parent things a := by simp [childrenOf, hc, ha.2]
      have hmemB : c ∈ childrenOf name parent things b := by simp [childrenOf, hc, hb.2]
      exact hapart hmemA hmemB
    have hlength : (things.map name).count (parent c) = holders.length := by
      rw [List.count_eq_countP, List.countP_map, List.countP_eq_length_filter]
      rfl
    have hpos : 0 < (things.map name).count (parent c) := List.count_pos_iff.mpr hparent
    have hle : holders.length ≤ 1 := length_le_one_of_forall_eq (hnodup.filter _) hone
    omega
  · intro hwell
    obtain ⟨bound, hbound⟩ := hwell.exists_bound
    refine ⟨bound, ?_, ?_⟩
    · apply List.eq_nil_iff_forall_not_mem.mpr
      intro a ha
      exact absurd (hbound bound a (mem_descend_iff.mp ha)) (by omega)
    · apply (List.perm_ext_iff_of_nodup _ hnodup).mpr
      · intro a
        rw [mem_generations]
        constructor
        · intro ⟨i, _, hmem⟩
          exact (mem_descend_iff.mp hmem).mem
        · intro ha
          obtain ⟨i, hi⟩ := hwell.below a ha
          exact ⟨i, hbound i a hi, mem_descend_iff.mpr hi⟩
      · apply nodup_generations (fun i _ => hwell.nodup_descend hnodup i)
        intro i j a hi hj
        exact hwell.below_unique (mem_descend_iff.mp hi) (mem_descend_iff.mp hj)

end Parents

end SolidTrace.Lib
