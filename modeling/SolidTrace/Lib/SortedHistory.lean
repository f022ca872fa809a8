import Mathlib.Order.Lattice
import Mathlib.Data.List.Basic

/-!
# A history in key order, cut at keys

A history appends entries of increasing keys. A reader that works through it keeps a cursor, so
what it has read, what it is about to read and what is left are the entries up to a key, between
two keys, and past a key. An appended entry goes past every key the reader holds.
-/

namespace SortedHistory

variable {α K : Type*} [LinearOrder K] (key : α → K)

/-- The entries up to and including a key. -/
def upTo (l : List α) (c : K) : List α := l.filter fun x => key x ≤ c

/-- The entries past a key. -/
def past (l : List α) (c : K) : List α := l.filter fun x => c < key x

/-- The entries past the first key, up to and including the second. -/
def between (l : List α) (c u : K) : List α := l.filter fun x => c < key x ∧ key x ≤ u

/-- The entries are in increasing key order. -/
def Increasing (l : List α) : Prop := l.Pairwise fun x y => key x < key y

variable {key} {l : List α} {c u : K}

/-- What is up to a key, inclusive. -/
theorem mem_upTo {x : α} : x ∈ upTo key l c ↔ x ∈ l ∧ key x ≤ c := by simp [upTo]

/-- What is past a key, exclusive. -/
theorem mem_past {x : α} : x ∈ past key l c ↔ x ∈ l ∧ c < key x := by simp [past]

/-- What is past one key and up to another. -/
theorem mem_between {x : α} : x ∈ between key l c u ↔ x ∈ l ∧ c < key x ∧ key x ≤ u := by
  simp [between]

/-- Going past a later key reads on in what is past an earlier one. -/
theorem past_past (hcu : c ≤ u) : past key (past key l c) u = past key l u := by
  rw [past, past, past, List.filter_filter]
  refine List.filter_congr fun x _ => ?_
  by_cases hu : u < key x
  · simp [hu, hcu.trans_lt hu]
  · simp [hu]

/-- What is up to an earlier key of what is up to a later one. -/
theorem upTo_upTo (hcu : c ≤ u) : upTo key (upTo key l u) c = upTo key l c := by
  rw [upTo, upTo, upTo, List.filter_filter]
  refine List.filter_congr fun x _ => ?_
  by_cases hc : key x ≤ c
  · simp [hc, hc.trans hcu]
  · simp [hc]

/-- A key cuts an increasing history in two. -/
theorem upTo_append_past (hl : Increasing key l) : upTo key l c ++ past key l c = l := by
  induction l with
  | nil => rfl
  | cons x rest ih =>
    obtain ⟨hfirst, hrest⟩ := List.pairwise_cons.mp hl
    have ih := ih hrest
    by_cases hc : key x ≤ c
    · simp only [upTo, past, List.filter_cons, hc, hc.not_gt, decide_true, decide_false, if_true,
        Bool.false_eq_true, if_false, List.cons_append] at ih ⊢
      rw [ih]
    · have hpast : ∀ y ∈ x :: rest, c < key y := by
        intro y hy
        rcases List.mem_cons.mp hy with rfl | hy
        · exact not_le.mp hc
        · exact (not_le.mp hc).trans (hfirst y hy)
      have hleft : upTo key (x :: rest) c = [] :=
        List.filter_eq_nil_iff.mpr fun y hy => by simpa using hpast y hy
      have hright : past key (x :: rest) c = x :: rest :=
        List.filter_eq_self.mpr fun y hy => by simpa using hpast y hy
      rw [hleft, hright, List.nil_append]

/-- Past a key come the entries up to a later key and then those past it. -/
theorem between_append_past (hl : Increasing key l) (hcu : c ≤ u) :
    between key l c u ++ past key l u = past key l c := by
  have hcut : upTo key (past key l c) u ++ past key (past key l c) u = past key l c :=
    upTo_append_past (hl.filter _)
  rw [past_past hcu, upTo, past.eq_def key l c, List.filter_filter] at hcut
  rw [past.eq_def key l c, ← hcut]
  congr 1
  exact List.filter_congr fun x _ => by rw [Bool.and_comm, ← Bool.decide_and]

/-- Up to a key come the entries up to an earlier key and then those between. -/
theorem upTo_append_between (hl : Increasing key l) (hcu : c ≤ u) :
    upTo key l c ++ between key l c u = upTo key l u := by
  have hcut : upTo key (upTo key l u) c ++ past key (upTo key l u) c = upTo key l u :=
    upTo_append_past (hl.filter _)
  rw [upTo, past, upTo, List.filter_filter, List.filter_filter] at hcut
  rw [upTo.eq_def key l u, ← hcut]
  congr 1
  · refine List.filter_congr fun x _ => ?_
    by_cases hc : key x ≤ c
    · simp [hc, hc.trans hcu]
    · simp [hc]
  · exact List.filter_congr fun x _ => by rw [← Bool.decide_and]

/-- A prefix of what is past a key is what lies between the key and its own last entry's. -/
theorem eq_between_of_prefix (hl : Increasing key l) {front : List α} {last : α}
    (hfront : front <+: past key l c) (hlast : front.getLast? = some last) :
    front = between key l c (key last) := by
  obtain ⟨rest, hrest⟩ := hfront
  have hsorted : (front ++ rest).Pairwise fun x y => key x < key y := hrest ▸ hl.filter _
  obtain ⟨hpre, -, hcross⟩ := List.pairwise_append.mp hsorted
  obtain ⟨init, rfl⟩ := List.getLast?_eq_some_iff.mp hlast
  have hle : ∀ x ∈ init ++ [last], key x ≤ key last := by
    intro x hx
    rcases List.mem_append.mp hx with hx | hx
    · exact ((List.pairwise_append.mp hpre).2.2 x hx last (by simp)).le
    · exact (List.mem_singleton.mp hx) ▸ le_rfl
  have hbetween : between key l c (key last) = upTo key (past key l c) (key last) := by
    rw [between, upTo, past, List.filter_filter]
    exact List.filter_congr fun x _ => by rw [Bool.decide_and, Bool.and_comm]
  have hnone : upTo key rest (key last) = [] :=
    List.filter_eq_nil_iff.mpr fun x hx => by simpa using hcross last (by simp) x hx
  have hall : upTo key (init ++ [last]) (key last) = init ++ [last] :=
    List.filter_eq_self.mpr fun x hx => by simpa using hle x hx
  rw [hbetween, ← hrest]
  change init ++ [last] = (init ++ [last] ++ rest).filter _
  rw [List.filter_append]
  change init ++ [last] = upTo key (init ++ [last]) (key last) ++ upTo key rest (key last)
  rw [hall, hnone, List.append_nil]

/-- An appended entry past a key leaves what is up to the key. -/
theorem upTo_append_of_lt {x : α} (hx : c < key x) : upTo key (l ++ [x]) c = upTo key l c := by
  simp [upTo, List.filter_append, hx.not_ge]

/-- An appended entry past a key leaves what is between an earlier key and it. -/
theorem between_append_of_lt {x : α} (hx : u < key x) :
    between key (l ++ [x]) c u = between key l c u := by
  simp [between, List.filter_append, hx.not_ge]

/-- An appended entry past a key comes last past it. -/
theorem past_append_of_lt {x : α} (hx : c < key x) : past key (l ++ [x]) c = past key l c ++ [x] := by
  simp [past, List.filter_append, hx]

/-- Appending an entry past every entry keeps the order. -/
theorem Increasing.append {x : α} (hl : Increasing key l) (hx : ∀ y ∈ l, key y < key x) :
    Increasing key (l ++ [x]) := by
  refine List.pairwise_append.mpr ⟨hl, List.pairwise_singleton _ _, fun y hy z hz => ?_⟩
  obtain rfl := List.mem_singleton.mp hz
  exact hx y hy

end SortedHistory
