import Mathlib.Data.List.Infix

/-!
# Texts joined by a separator

Where a text that holds no separator is found in others joined by one, and texts with a separator more.
-/

namespace Joined

variable {α : Type*} {z : α}

/-- What holds no separator is found on either side of one. -/
theorem infix_append_cons_iff {p a b : List α} (h : z ∉ p) : p <:+: a ++ z :: b ↔ p <:+: a ∨ p <:+: b := by
  constructor
  · rintro ⟨u, v, huv⟩
    rcases List.append_eq_append_iff.1 huv with ⟨c, ha, -⟩ | ⟨c, hc, hv⟩
    · exact .inl ⟨u, c, ha.symm⟩
    · cases c with
      | nil => exact .inl ⟨u, [], by simpa using hc⟩
      | cons x c =>
        obtain ⟨rfl, rfl⟩ := List.cons.inj hv
        -- The separator is before what is found, which does not hold it.
        rcases List.append_eq_append_iff.1 hc with ⟨d, rfl, hd⟩ | ⟨d, rfl, hd⟩
        · exact absurd (hd ▸ List.mem_append_right d List.mem_cons_self) h
        · cases d with
          | nil => exact absurd ((List.nil_append p ▸ hd) ▸ List.mem_cons_self) h
          | cons y d =>
            obtain ⟨-, rfl⟩ := List.cons.inj hd
            exact .inr ⟨d, v, rfl⟩
  · rintro (h | h)
    · exact h.trans (List.prefix_append a _).isInfix
    · exact h.trans ((List.suffix_cons z b).trans (List.suffix_append a _)).isInfix

/-- What holds no separator, and is something, is found in joined texts just when it is in one of them. -/
theorem infix_intercalate_iff {p : List α} (h : z ∉ p) (hne : p ≠ []) (parts : List (List α)) :
    p <:+: [z].intercalate parts ↔ ∃ part ∈ parts, p <:+: part := by
  induction parts with
  | nil => simp [hne]
  | cons part rest ih =>
    cases rest with
    | nil => simp
    | cons next rest =>
      have hcons : [z].intercalate (part :: next :: rest) = part ++ z :: [z].intercalate (next :: rest) := by
        rw [List.intercalate_cons_cons, List.append_assoc, List.singleton_append]
      rw [hcons, infix_append_cons_iff h, ih]
      simp

/-- A list that is its own shift by a separator is all separators. -/
theorem eq_of_append_singleton {w : List α} {c : α} (h : w ++ [c] = z :: w) : ∀ x ∈ w, x = z := by
  induction w with
  | nil => exact List.forall_mem_nil _
  | cons x w ih =>
    rw [List.cons_append] at h
    obtain ⟨rfl, hrest⟩ := List.cons.inj h
    exact List.forall_mem_cons.2 ⟨rfl, ih hrest⟩

/-- Two texts joined are not found where another separator is between them. -/
theorem not_infix_doubled {u w : List α} (hu : z ∉ u) (hune : u ≠ []) (hw : ∃ x ∈ w, x ≠ z) :
    ¬u ++ z :: w <:+: u ++ z :: z :: w := by
  rintro ⟨a, b, hab⟩
  have hlength := congrArg List.length hab
  simp only [List.length_append, List.length_cons] at hlength
  cases a with
  | nil =>
    obtain ⟨c, rfl⟩ : ∃ c, b = [c] := List.length_eq_one_iff.1 (by simp only [List.length_nil] at hlength; omega)
    rw [List.nil_append, List.append_assoc, List.append_cancel_left_eq, List.cons_append] at hab
    obtain ⟨x, hx, hne⟩ := hw
    exact hne (eq_of_append_singleton (List.cons.inj hab).2 x hx)
  | cons c a =>
    simp only [List.length_cons] at hlength
    obtain rfl : a = [] := List.eq_nil_of_length_eq_zero (by omega)
    obtain rfl : b = [] := List.eq_nil_of_length_eq_zero (by omega)
    rw [List.append_nil, List.singleton_append] at hab
    obtain ⟨x, u, rfl⟩ := List.exists_cons_of_ne_nil hune
    have hrest : (x :: u) ++ z :: w = u ++ z :: z :: w := (List.cons.inj hab).2
    -- What follows the first letter starts over at its separator, one letter late.
    rcases List.append_eq_append_iff.1 hrest with ⟨d, hd, -⟩ | ⟨d, hd, hz⟩
    · have hlonger := congrArg List.length hd
      simp only [List.length_append, List.length_cons] at hlonger
      omega
    · cases d with
      | nil =>
        have hshorter := congrArg List.length hd
        simp at hshorter
      | cons y d =>
        obtain ⟨rfl, -⟩ := List.cons.inj hz
        exact hu (hd ▸ List.mem_append_right u List.mem_cons_self)

end Joined
