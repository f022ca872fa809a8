import Mathlib.Algebra.BigOperators.Group.List.Basic
import Mathlib.Algebra.GroupWithZero.Nat
import Mathlib.Data.List.Count
import Mathlib.Data.List.Dedup

/-!
# The commonest values of a list

The first so many of a list's values by how often each is among them, and adding up what comes under the
same key.
-/

namespace Tally

section Commonest

variable {α : Type*} [DecidableEq α]

/-- Each of some values once, with how often it is among them. -/
def counted (values : List α) : List (α × ℕ) := values.dedup.map fun v => (v, values.count v)

/-- The `k` commonest of some values, the commonest first, each once with how often it is among them. -/
structure Commonest (k : ℕ) (values : List α) (listed : List (α × ℕ)) : Prop where
  once : (listed.map Prod.fst).Nodup
  counts : ∀ p ∈ listed, p.1 ∈ values ∧ p.2 = values.count p.1
  descending : listed.Pairwise fun p q => q.2 ≤ p.2
  others : ∀ v ∈ values, v ∉ listed.map Prod.fst → ∀ p ∈ listed, values.count v ≤ p.2
  length : listed.length = min k values.dedup.length

/-- Each value is counted once, in the order they are first met. -/
theorem map_fst_counted (values : List α) : (counted values).map Prod.fst = values.dedup := by
  simp [counted, Function.comp_def]

/-- The order of the values does not count. -/
theorem counted_perm {values values' : List α} (h : values.Perm values') :
    (counted values).Perm (counted values') := by
  unfold counted
  simp only [h.count_eq]
  exact h.dedup.map _

/-- Values are counted as their images under an injective function are. -/
theorem counted_map {β : Type*} [DecidableEq β] {f : α → β} (hf : Function.Injective f) (values : List α) :
    counted (values.map f) = (counted values).map fun p => (f p.1, p.2) := by
  simp only [counted, List.dedup_map_of_injective hf, List.map_map]
  refine List.map_congr_left fun v _ => ?_
  simp only [Function.comp_apply, List.count_map_of_injective values f hf]

/-- How often a value is among those of some items is how many items have it. -/
theorem counted_of_items {ι : Type*} (items : List ι) (f : ι → α) :
    counted (items.map f) = (items.map f).dedup.map fun v => (v, (items.filter fun item => f item = v).length) := by
  refine List.map_congr_left fun v _ => ?_
  have hcount : (items.map f).count v = items.countP fun item => f item = v := by
    rw [List.count_eq_countP, List.countP_map]
    exact List.countP_congr fun item _ => by simp
  rw [hcount, List.countP_eq_length_filter]

/-- Sorting the counted values by their counts puts the commonest first. -/
theorem Commonest.of_sorted {values : List α} {sorted : List (α × ℕ)} (hperm : sorted.Perm (counted values))
    (hsorted : sorted.Pairwise fun p q => q.2 ≤ p.2) (k : ℕ) : Commonest k values (sorted.take k) where
  once := by
    have hnodup : (sorted.map Prod.fst).Nodup := by
      rw [(hperm.map Prod.fst).nodup_iff, map_fst_counted]
      exact List.nodup_dedup values
    exact hnodup.sublist ((List.take_sublist k sorted).map Prod.fst)
  counts := by
    intro p hp
    have hmem := hperm.mem_iff.1 (List.mem_of_mem_take hp)
    obtain ⟨v, hv, rfl⟩ := List.mem_map.1 hmem
    exact ⟨List.mem_dedup.1 hv, rfl⟩
  descending := hsorted.sublist (List.take_sublist k sorted)
  others := by
    intro v hv hnot p hp
    have hmem : (v, values.count v) ∈ sorted.take k ++ sorted.drop k := by
      rw [List.take_append_drop, hperm.mem_iff]
      exact List.mem_map.2 ⟨v, List.mem_dedup.2 hv, rfl⟩
    rw [← List.take_append_drop k sorted, List.pairwise_append] at hsorted
    rcases List.mem_append.1 hmem with htake | hdrop
    · exact absurd (List.mem_map_of_mem htake) hnot
    · exact hsorted.2.2 p hp _ hdrop
  length := by
    rw [List.length_take, hperm.length_eq, counted, List.length_map]

end Commonest

section Tally

variable {κ : Type*} [DecidableEq κ]

/-- Add a count to what is tallied under a key. A new key comes last. -/
def addTally (tally : List (κ × ℕ)) (key : κ) (n : ℕ) : List (κ × ℕ) :=
  if key ∈ tally.map Prod.fst then tally.map fun entry => if entry.1 = key then (key, entry.2 + n) else entry
  else tally ++ [(key, n)]

/-- What comes under each key, in the order that the keys first come. -/
def tally (entries : List (κ × ℕ)) : List (κ × ℕ) :=
  entries.foldl (fun tally entry => addTally tally entry.1 entry.2) []

/-- The sum of what comes under a key. -/
def sumUnder (key : κ) (entries : List (κ × ℕ)) : ℕ :=
  ((entries.filter fun entry => entry.1 = key).map Prod.snd).sum

/-- A tally of entries: each of their keys once, with the sum of what comes under it. -/
structure Tallies (entries tallied : List (κ × ℕ)) : Prop where
  once : (tallied.map Prod.fst).Nodup
  keys : ∀ key, key ∈ tallied.map Prod.fst ↔ key ∈ entries.map Prod.fst
  sums : ∀ p ∈ tallied, p.2 = sumUnder p.1 entries

/-- An entry more adds to the sum under its own key only. -/
theorem sumUnder_append (key : κ) (entries : List (κ × ℕ)) (entry : κ × ℕ) :
    sumUnder key (entries ++ [entry]) = sumUnder key entries + if entry.1 = key then entry.2 else 0 := by
  by_cases h : entry.1 = key <;> simp [sumUnder, List.filter_append, h]

/-- Nothing comes under a key that no entry has. -/
theorem sumUnder_of_notMem {key : κ} {entries : List (κ × ℕ)} (h : key ∉ entries.map Prod.fst) :
    sumUnder key entries = 0 := by
  have hnone : entries.filter (fun entry => entry.1 = key) = [] := by
    rw [List.filter_eq_nil_iff]
    intro entry hentry hkey
    exact h (List.mem_map.2 ⟨entry, hentry, by simpa using hkey⟩)
  rw [sumUnder, hnone]
  rfl

/-- Adding an entry keeps a tally one. -/
theorem Tallies.add {entries tallied : List (κ × ℕ)} (h : Tallies entries tallied) (key : κ) (n : ℕ) :
    Tallies (entries ++ [(key, n)]) (addTally tallied key n) := by
  unfold addTally
  split
  next hmem =>
    have hfst : (tallied.map fun entry => if entry.1 = key then (key, entry.2 + n) else entry).map Prod.fst =
        tallied.map Prod.fst := by
      rw [List.map_map]
      refine List.map_congr_left fun entry _ => ?_
      by_cases hkey : entry.1 = key <;> simp [hkey]
    refine ⟨hfst ▸ h.once, fun k => ?_, fun p hp => ?_⟩
    · rw [hfst, h.keys k, List.map_append, List.mem_append]
      constructor
      · exact .inl
      · rintro (hk | hk)
        · exact hk
        · obtain rfl : k = key := by simpa using hk
          exact (h.keys k).1 hmem
    · obtain ⟨entry, hentry, rfl⟩ := List.mem_map.1 hp
      have hsum := h.sums entry hentry
      rw [sumUnder_append]
      by_cases hkey : entry.1 = key
      · subst hkey
        simp [hsum]
      · simp [hkey, Ne.symm hkey, hsum]
  next hnot =>
    refine ⟨?_, fun k => ?_, fun p hp => ?_⟩
    · rw [List.map_append, List.nodup_append]
      refine ⟨h.once, List.nodup_singleton _, fun k hk k' hk' => ?_⟩
      rintro rfl
      obtain rfl : k = key := by simpa using hk'
      exact hnot hk
    · simp only [List.map_append, List.mem_append, h.keys k]
    · rw [sumUnder_append]
      rcases List.mem_append.1 hp with hold | hnew
      · have hne : key ≠ p.1 := fun heq => hnot (heq ▸ List.mem_map_of_mem hold)
        simp [hne, h.sums p hold]
      · obtain rfl : p = (key, n) := by simpa using hnew
        rw [sumUnder_of_notMem fun hmem => hnot ((h.keys key).2 hmem)]
        simp

/-- The order of a tally does not count. -/
theorem Tallies.of_perm {entries tallied tallied' : List (κ × ℕ)} (h : Tallies entries tallied)
    (hperm : tallied'.Perm tallied) : Tallies entries tallied' where
  once := (hperm.map Prod.fst).nodup_iff.2 h.once
  keys key := (hperm.map Prod.fst).mem_iff.trans (h.keys key)
  sums p hp := h.sums p (hperm.mem_iff.1 hp)

/-- The tally that is kept entry by entry is one of them all. -/
theorem tallies_tally (entries : List (κ × ℕ)) : Tallies entries (tally entries) := by
  have hfrom : ∀ done rest : List (κ × ℕ), ∀ tallied, Tallies done tallied →
      Tallies (done ++ rest) (rest.foldl (fun tally entry => addTally tally entry.1 entry.2) tallied) := by
    intro done rest
    induction rest generalizing done with
    | nil =>
      intro tallied h
      rwa [List.append_nil]
    | cons entry rest ih =>
      intro tallied h
      have hnext := ih (done ++ [entry]) _ (h.add entry.1 entry.2)
      rwa [List.append_assoc, List.singleton_append] at hnext
  have hempty : Tallies ([] : List (κ × ℕ)) [] := ⟨List.nodup_nil, fun _ => Iff.rfl, nofun⟩
  exact hfrom [] entries [] hempty

end Tally

end Tally
