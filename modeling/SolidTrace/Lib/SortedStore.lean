import Mathlib.Order.Lattice
import Mathlib.Data.List.Basic

/-!
# An ordered key-value store

Entries are kept in strictly increasing key order, as an ordered store's iterators return them.
A write replaces the entry at its key, a range deletion keeps the entries whose keys it does not
cover. Reading a range is filtering the entries by their keys.
-/

namespace SortedStore

/-- A store's entries, in strictly increasing key order. -/
@[ext] structure Store (K V : Type*) [LinearOrder K] where
  entries : List (K × V)
  sorted : entries.Pairwise fun a b => a.1 < b.1

variable {K V : Type*} [LinearOrder K]

/-- Insert an entry at its place, over an entry with its key. -/
def insertEntry (k : K) (v : V) : List (K × V) → List (K × V)
  | [] => [(k, v)]
  | e :: rest =>
    if k < e.1 then (k, v) :: e :: rest
    else if k = e.1 then (k, v) :: rest
    else e :: insertEntry k v rest

/-- An entry after an insertion is the inserted one or an older one at another key. -/
theorem mem_insertEntry (k : K) (v : V) (entries : List (K × V))
    (hsorted : entries.Pairwise fun a b => a.1 < b.1) (e : K × V) :
    e ∈ insertEntry k v entries ↔ e = (k, v) ∨ e ∈ entries ∧ e.1 ≠ k := by
  induction entries with
  | nil => simp [insertEntry]
  | cons x rest ih =>
    obtain ⟨hfirst, hrest⟩ := List.pairwise_cons.mp hsorted
    rw [insertEntry]
    split
    · rename_i hlt
      have hne : ∀ y ∈ x :: rest, y.1 ≠ k := by
        intro y hy
        rcases List.mem_cons.mp hy with rfl | hy
        · exact hlt.ne'
        · exact (hlt.trans (hfirst y hy)).ne'
      rw [List.mem_cons]
      exact or_congr_right ⟨fun h => ⟨h, hne e h⟩, And.left⟩
    · split
      · rename_i heq
        have hne : ∀ y ∈ rest, y.1 ≠ k := fun y hy => heq ▸ (hfirst y hy).ne'
        rw [List.mem_cons, List.mem_cons]
        constructor
        · rintro (h | h)
          · exact Or.inl h
          · exact Or.inr ⟨Or.inr h, hne e h⟩
        · rintro (h | ⟨h | h, hk⟩)
          · exact Or.inl h
          · exact absurd (h ▸ heq.symm) hk
          · exact Or.inr h
      · rename_i heq
        rw [List.mem_cons, ih hrest, List.mem_cons]
        constructor
        · rintro (h | h | ⟨h, hk⟩)
          · exact Or.inr ⟨Or.inl h, h ▸ Ne.symm heq⟩
          · exact Or.inl h
          · exact Or.inr ⟨Or.inr h, hk⟩
        · rintro (h | ⟨h | h, hk⟩)
          · exact Or.inr (Or.inl h)
          · exact Or.inl h
          · exact Or.inr (Or.inr ⟨h, hk⟩)

/-- Insertion keeps the key order. -/
theorem insertEntry_sorted (k : K) (v : V) (entries : List (K × V))
    (hsorted : entries.Pairwise fun a b => a.1 < b.1) :
    (insertEntry k v entries).Pairwise fun a b => a.1 < b.1 := by
  induction entries with
  | nil => simp [insertEntry]
  | cons x rest ih =>
    obtain ⟨hfirst, hrest⟩ := List.pairwise_cons.mp hsorted
    rw [insertEntry]
    split
    · rename_i hlt
      refine List.pairwise_cons.mpr ⟨fun y hy => ?_, hsorted⟩
      rcases List.mem_cons.mp hy with rfl | hy
      · exact hlt
      · exact hlt.trans (hfirst y hy)
    · split
      · rename_i heq
        exact List.pairwise_cons.mpr ⟨fun y hy => heq ▸ hfirst y hy, hrest⟩
      · rename_i hle hne
        refine List.pairwise_cons.mpr ⟨fun y hy => ?_, ih hrest⟩
        rcases (mem_insertEntry k v rest hrest y).mp hy with rfl | ⟨hy, _⟩
        · exact lt_of_le_of_ne (not_lt.mp hle) (Ne.symm hne)
        · exact hfirst y hy

/-- Strictly sorted lists with the same entries are the same list. -/
theorem eq_of_mem_iff (left right : List (K × V)) (hleft : left.Pairwise fun a b => a.1 < b.1)
    (hright : right.Pairwise fun a b => a.1 < b.1) (hmem : ∀ e, e ∈ left ↔ e ∈ right) :
    left = right := by
  have hne : ∀ a b : K × V, a.1 < b.1 → a ≠ b := fun a b hlt heq => hlt.ne (congrArg Prod.fst heq)
  have hperm : left.Perm right := (List.perm_ext_iff_of_nodup (hleft.imp (hne _ _))
    (hright.imp (hne _ _))).mpr hmem
  exact hperm.eq_of_pairwise (fun a b _ _ hab hba => absurd hab hba.asymm) hleft hright

namespace Store

/-- The store with no entry. -/
def empty : Store K V := ⟨[], List.Pairwise.nil⟩

/-- Write an entry. -/
def set (s : Store K V) (k : K) (v : V) : Store K V :=
  ⟨insertEntry k v s.entries, insertEntry_sorted k v s.entries s.sorted⟩

/-- Delete the entries whose keys are in a range. -/
def deleteRange (s : Store K V) (inRange : K → Bool) : Store K V :=
  ⟨s.entries.filter fun e => !inRange e.1, s.sorted.filter _⟩

/-- The entries whose keys are in a range, in key order. -/
def range (s : Store K V) (inRange : K → Bool) : List (K × V) :=
  s.entries.filter fun e => inRange e.1

/-- The value at a key. -/
def get? (s : Store K V) (k : K) : Option V :=
  (s.entries.find? fun e => e.1 = k).map Prod.snd

/-- A new store has no entries. -/
@[simp] theorem entries_empty : (empty : Store K V).entries = [] := rfl

/-- A range of a new store is empty. -/
@[simp] theorem range_empty (inRange : K → Bool) : (empty : Store K V).range inRange = [] := rfl

/-- After a write the store holds the entry and what it held at other keys. -/
theorem mem_set (s : Store K V) (k : K) (v : V) (e : K × V) :
    e ∈ (s.set k v).entries ↔ e = (k, v) ∨ e ∈ s.entries ∧ e.1 ≠ k :=
  mem_insertEntry k v s.entries s.sorted e

/-- After a range deletion the store holds the entries outside the range. -/
theorem mem_deleteRange (s : Store K V) (inRange : K → Bool) (e : K × V) :
    e ∈ (s.deleteRange inRange).entries ↔ e ∈ s.entries ∧ inRange e.1 = false := by
  simp [deleteRange]

/-- A range is the entries whose keys are in it. -/
theorem mem_range (s : Store K V) (inRange : K → Bool) (e : K × V) :
    e ∈ s.range inRange ↔ e ∈ s.entries ∧ inRange e.1 = true := by
  simp [range]

/-- A range is read in strict key order. -/
theorem range_sorted (s : Store K V) (inRange : K → Bool) :
    (s.range inRange).Pairwise fun a b => a.1 < b.1 := s.sorted.filter _

/-- A key is looked up by its one entry. -/
theorem get?_eq_some_iff (s : Store K V) (k : K) (v : V) :
    s.get? k = some v ↔ (k, v) ∈ s.entries := by
  obtain ⟨entries, hsorted⟩ := s
  change (entries.find? fun e => e.1 = k).map Prod.snd = some v ↔ (k, v) ∈ entries
  induction entries with
  | nil => simp
  | cons e rest ih =>
    obtain ⟨hfirst, hrest⟩ := List.pairwise_cons.mp hsorted
    by_cases he : e.1 = k
    · rw [List.find?_cons_of_pos (by simpa using he), List.mem_cons]
      have hnot : (k, v) ∉ rest := fun hmem => (he ▸ hfirst _ hmem).false
      simp [hnot, Prod.ext_iff, he, eq_comm]
    · rw [List.find?_cons_of_neg (by simpa using he), ih hrest, List.mem_cons]
      have hne : (k, v) ≠ e := fun h => he (h ▸ rfl)
      simp [hne]

/-- The key just written reads back. -/
@[simp] theorem get?_set_self (s : Store K V) (k : K) (v : V) : (s.set k v).get? k = some v := by
  rw [get?_eq_some_iff, mem_set]
  exact Or.inl rfl

/-- A write leaves the other keys as they were. -/
theorem get?_set_of_ne (s : Store K V) {k k' : K} (v : V) (hne : k' ≠ k) :
    (s.set k v).get? k' = s.get? k' := by
  ext value
  rw [get?_eq_some_iff, get?_eq_some_iff, mem_set]
  simp [hne]

/-- A write past every key of a range adds its entry at the range's end. -/
theorem range_set_of_lt (s : Store K V) (inRange : K → Bool) (k : K) (v : V)
    (hlt : ∀ e ∈ s.entries, inRange e.1 = true → e.1 < k) (hk : inRange k = true) :
    (s.set k v).range inRange = s.range inRange ++ [(k, v)] := by
  apply eq_of_mem_iff _ _ (range_sorted _ _)
  · rw [List.pairwise_append]
    refine ⟨range_sorted _ _, List.pairwise_singleton _ _, fun a ha b hb => ?_⟩
    obtain rfl := List.mem_singleton.mp hb
    obtain ⟨ha, hin⟩ := (mem_range _ _ _).mp ha
    exact hlt a ha hin
  · intro e
    rw [mem_range, mem_set, List.mem_append, List.mem_singleton, mem_range]
    constructor
    · rintro ⟨rfl | ⟨he, _⟩, hin⟩
      · exact Or.inr rfl
      · exact Or.inl ⟨he, hin⟩
    · rintro (⟨he, hin⟩ | rfl)
      · exact ⟨Or.inr ⟨he, (hlt e he hin).ne⟩, hin⟩
      · exact ⟨Or.inl rfl, hk⟩

/-- A write outside a range leaves the range as it was. -/
theorem range_set_of_not (s : Store K V) (inRange : K → Bool) (k : K) (v : V)
    (hk : inRange k = false) : (s.set k v).range inRange = s.range inRange := by
  apply eq_of_mem_iff _ _ (range_sorted _ _) (range_sorted _ _)
  intro e
  rw [mem_range, mem_set, mem_range]
  constructor
  · rintro ⟨rfl | ⟨he, _⟩, hin⟩
    · rw [hk] at hin
      contradiction
    · exact ⟨he, hin⟩
  · rintro ⟨he, hin⟩
    refine ⟨Or.inr ⟨he, ?_⟩, hin⟩
    rintro rfl
    rw [hk] at hin
    contradiction

/-- Ranges that cover the same stored keys delete the same entries. -/
theorem deleteRange_congr (s : Store K V) {left right : K → Bool}
    (h : ∀ e ∈ s.entries, left e.1 = right e.1) : s.deleteRange left = s.deleteRange right :=
  Store.ext (List.filter_congr fun e he => by rw [h e he])

/-- A range that covers no stored key deletes nothing. -/
theorem deleteRange_of_forall_not (s : Store K V) (deleted : K → Bool)
    (h : ∀ e ∈ s.entries, deleted e.1 = false) : s.deleteRange deleted = s :=
  Store.ext (List.filter_eq_self.mpr fun e he => by rw [h e he]; rfl)

/-- Deleting one range and then another deletes both. -/
theorem deleteRange_deleteRange (s : Store K V) (first second : K → Bool) :
    (s.deleteRange first).deleteRange second = s.deleteRange fun k => first k || second k := by
  refine Store.ext ?_
  simp only [deleteRange, List.filter_filter, Bool.not_or]
  exact List.filter_congr fun e _ => Bool.and_comm _ _

/-- Deleting a range disjoint from another leaves the other as it was. -/
theorem range_deleteRange_of_disjoint (s : Store K V) (inRange deleted : K → Bool)
    (hdisjoint : ∀ k, inRange k = true → deleted k = false) :
    (s.deleteRange deleted).range inRange = s.range inRange := by
  rw [range, range, deleteRange, List.filter_filter]
  refine List.filter_congr fun e _ => ?_
  cases hin : inRange e.1 with
  | false => rfl
  | true => rw [hdisjoint e.1 hin]; rfl

end Store

end SortedStore
