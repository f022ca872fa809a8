import Mathlib.Data.List.Basic

/-!
# Reading the start of a list

Functions that read the start of a list and give the rest. What such a function reads does not depend
on what comes after, so long as that ends what it reads: a list's end can be exchanged for another
one.
-/

section

variable {α : Type} {ends : List α → Prop} {f g : List α → List α}

/-- A function that gives the rest of a list, and reads the same from the start of any list whose end
is exchanged for one that ends it. -/
structure Reader (ends : List α → Prop) (f : List α → List α) : Prop where
  suffix : ∀ l, f l <:+ l
  exchange : ∀ {m m' s s' : List α}, ends s' → f (m ++ s) = m' ++ s → f (m ++ s') = m' ++ s'

/-- Nothing before a list leaves an end of that list. -/
theorem eq_nil_of_append_suffix {m s : List α} (h : m ++ s <:+ s) : m = [] := by
  have hlength := h.length_le
  rw [List.length_append] at hlength
  exact List.eq_nil_of_length_eq_zero (by omega)

/-- What comes between a list and an end of it has that end too. -/
theorem exists_append_of_suffix {m s l : List α} (h : m ++ s <:+ l) : ∃ m', l = m' ++ s := by
  obtain ⟨u, rfl⟩ := h
  exact ⟨u ++ m, (List.append_assoc u m s).symm⟩

namespace Reader

/-- Read one thing after another. -/
theorem comp (hg : Reader ends g) (hf : Reader ends f) : Reader ends fun l => g (f l) := by
  refine ⟨fun l => (hg.suffix _).trans (hf.suffix l), ?_⟩
  intro m m' s s' hs h
  have hsuffix : m' ++ s <:+ f (m ++ s) := h ▸ hg.suffix _
  obtain ⟨u, hu⟩ := exists_append_of_suffix hsuffix
  rw [hf.exchange hs hu]
  exact hg.exchange hs (hu ▸ h)

/-- Skipping a run reads the same where what comes after ends the run. -/
theorem dropWhile {p : α → Bool} (hends : ∀ s, ends s → ∀ a ∈ s.head?, p a = false) :
    Reader ends fun l => l.dropWhile p := by
  refine ⟨fun l => List.dropWhile_suffix p, ?_⟩
  intro m m' s s' hs h
  induction m with
  | nil =>
    have hnil : m' = [] := by
      apply @eq_nil_of_append_suffix α m' s
      rw [← h]
      exact List.dropWhile_suffix p
    subst hnil
    cases s' with
    | nil => rfl
    | cons a s' =>
      have ha : p a = false := hends _ hs a rfl
      simp [ha]
  | cons a m ih =>
    simp only [List.cons_append, List.dropWhile_cons] at h ⊢
    split at h
    next ha => rw [if_pos ha, ih h]
    next ha =>
      have hm : a :: m = m' := List.append_cancel_right h
      rw [if_neg ha, ← hm]
      rfl

end Reader

/-- Reading that stops before a list's end does not depend on that end. -/
theorem dropWhile_exchange_cons {p : α → Bool} {a : α} {m u s : List α} (s' : List α)
    (h : (m ++ s).dropWhile p = a :: (u ++ s)) : (m ++ s').dropWhile p = a :: (u ++ s') := by
  rw [List.dropWhile_append] at h ⊢
  split at h
  next hnil =>
    have hsuffix : (a :: u) ++ s <:+ s := by
      rw [List.cons_append, ← h]
      exact List.dropWhile_suffix p
    exact absurd (eq_nil_of_append_suffix hsuffix) (List.cons_ne_nil a u)
  next hnil =>
    have hu : m.dropWhile p = a :: u := List.append_cancel_right h
    rw [if_neg hnil, hu]
    rfl

/-- What is read while a test passes is the same, too. -/
theorem takeWhile_exchange {p : α → Bool} {m m' s s' : List α}
    (h : (m ++ s).dropWhile p = m' ++ s) (h' : (m ++ s').dropWhile p = m' ++ s') :
    (m ++ s').takeWhile p = (m ++ s).takeWhile p := by
  have hread : ∀ t, (m ++ t).dropWhile p = m' ++ t → (m ++ t).takeWhile p ++ m' = m := by
    intro t ht
    have hall := List.takeWhile_append_dropWhile (p := p) (l := m ++ t)
    rw [ht, ← List.append_assoc] at hall
    exact List.append_cancel_right hall
  exact List.append_cancel_right ((hread s' h').trans (hread s h).symm)

/-- What is read while a test passes ends with something that passes it. -/
theorem exists_last_takeWhile {p : α → Bool} {a : α} (ha : p a = true) (l : List α) :
    ∃ w last, a :: l = w ++ last :: (a :: l).dropWhile p ∧ p last = true := by
  induction l generalizing a with
  | nil => exact ⟨[], a, by simp [ha], ha⟩
  | cons b l ih =>
    by_cases hb : p b = true
    · obtain ⟨w, last, hw, hlast⟩ := ih hb
      refine ⟨a :: w, last, ?_, hlast⟩
      rw [List.dropWhile_cons, if_pos ha, List.cons_append, ← hw]
    · exact ⟨[], a, by simp [ha, hb], ha⟩

end
