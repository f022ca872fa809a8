import Mathlib.Logic.Function.Basic
import Mathlib.Data.List.Induction

/-!
# A running winner for each name

Candidates come one after another, each under a name, and the better of two under one name is kept. When
`better` is a strict order that decides between any two candidates of a name, the winner of each name is
the one better than all others, in whatever order they come.
-/

namespace Winners

variable {K F : Type*} [DecidableEq K] (name : F → K) (better : F → F → Prop) [DecidableRel better]

/-- The better of a candidate and the one kept before it. -/
def bestOf (kept : Option F) (c : F) : F :=
  match kept with
  | some existing => if better c existing then c else existing
  | none => c

/-- Keep a candidate unless the one kept under its name is as good. -/
def keep (kept : K → Option F) (c : F) : K → Option F :=
  Function.update kept (name c) (some (bestOf better (kept (name c)) c))

/-- The winners of candidates that come one after another. -/
def winners (candidates : List F) : K → Option F := candidates.foldl (keep name better) fun _ => none

/-- A candidate that is better than every other one of its name. -/
def IsBest (candidates : List F) (k : K) (c : F) : Prop :=
  c ∈ candidates ∧ name c = k ∧ ∀ other ∈ candidates, name other = k → other ≠ c → better c other

/-- What decides between the candidates of a name. -/
structure Decides (candidates : List F) : Prop where
  asymm : ∀ a b, better a b → ¬better b a
  trans : ∀ a b c, better a b → better b c → better a c
  total : ∀ a ∈ candidates, ∀ b ∈ candidates, name a = name b → a ≠ b → better a b ∨ better b a

/-- The winners so far: each is the best of its name, and a name without one has had no candidate. -/
def Decided (candidates : List F) (kept : K → Option F) : Prop :=
  (∀ k c, kept k = some c → IsBest name better candidates k c) ∧
    ∀ k, kept k = none → ∀ c ∈ candidates, name c ≠ k

variable {name better} {candidates : List F}

omit [DecidableEq K] in
/-- The better of the best so far and a new candidate is the best of them all. -/
theorem Decides.isBest_bestOf {c existing : F} (h : Decides name better (candidates ++ [c]))
    (hexisting : IsBest name better candidates (name c) existing) :
    IsBest name better (candidates ++ [c]) (name c) (bestOf better (some existing) c) := by
  obtain ⟨hmem, hname, hbest⟩ := hexisting
  have hmem' : existing ∈ candidates ++ [c] := List.mem_append_left _ hmem
  rw [show bestOf better (some existing) c = if better c existing then c else existing from rfl]
  by_cases hbetter : better c existing
  · rw [if_pos hbetter]
    refine ⟨List.mem_append_right _ (List.mem_singleton_self c), rfl, fun other hother hnamed hne => ?_⟩
    rcases List.mem_append.1 hother with hother | hother
    · by_cases hsame : other = existing
      · exact hsame ▸ hbetter
      · exact h.trans _ _ _ hbetter (hbest other hother hnamed hsame)
    · exact absurd (List.mem_singleton.1 hother) hne
  · rw [if_neg hbetter]
    refine ⟨hmem', hname, fun other hother hnamed hne => ?_⟩
    rcases List.mem_append.1 hother with hother | hother
    · exact hbest other hother hnamed hne
    · obtain rfl := List.mem_singleton.1 hother
      exact (h.total _ hmem' _ (List.mem_append_right _ (List.mem_singleton_self _)) hname hne.symm).resolve_right
        hbetter

/-- A candidate more leaves every name decided. -/
theorem Decided.keep {kept : K → Option F} {c : F} (h : Decided name better candidates kept)
    (hdecides : Decides name better (candidates ++ [c])) :
    Decided name better (candidates ++ [c]) (keep name better kept c) := by
  have hothers : ∀ k ≠ name c, Winners.keep name better kept c k = kept k := fun k hk =>
    Function.update_of_ne hk _ _
  have hown : Winners.keep name better kept c (name c) = some (bestOf better (kept (name c)) c) :=
    Function.update_self _ _ _
  constructor
  · intro k winner hwinner
    by_cases hk : k = name c
    · subst hk
      obtain rfl := Option.some.inj (hown.symm.trans hwinner)
      cases hkept : kept (name c) with
      | none =>
        refine ⟨List.mem_append_right _ (List.mem_singleton_self c), rfl, fun other hother hnamed hne => ?_⟩
        rcases List.mem_append.1 hother with hother | hother
        · exact absurd hnamed (h.2 _ hkept other hother)
        · exact absurd (List.mem_singleton.1 hother) hne
      | some existing => exact hdecides.isBest_bestOf (h.1 _ _ hkept)
    · obtain ⟨hmem, hname, hbest⟩ := h.1 k winner ((hothers k hk).symm.trans hwinner)
      refine ⟨List.mem_append_left _ hmem, hname, fun other hother hnamed hne => ?_⟩
      rcases List.mem_append.1 hother with hother | hother
      · exact hbest other hother hnamed hne
      · exact absurd (List.mem_singleton.1 hother ▸ hnamed.symm) hk
  · intro k hnone other hother
    by_cases hk : k = name c
    · subst hk
      cases hown.symm.trans hnone
    · rcases List.mem_append.1 hother with hother | hother
      · exact h.2 k ((hothers k hk).symm.trans hnone) other hother
      · exact List.mem_singleton.1 hother ▸ Ne.symm hk

/-- The winners are decided whatever the order the candidates came in. -/
theorem Decides.decided_winners (h : Decides name better candidates) :
    Decided name better candidates (winners name better candidates) := by
  induction candidates using List.reverseRecOn with
  | nil => exact ⟨fun k c hkept => (Option.some_ne_none c hkept.symm).elim, fun k _ c hc => absurd hc List.not_mem_nil⟩
  | append_singleton rest c ih =>
    have hrest : Decides name better rest := ⟨h.asymm, h.trans, fun a ha b hb =>
      h.total a (List.mem_append_left _ ha) b (List.mem_append_left _ hb)⟩
    rw [winners, List.foldl_append, List.foldl_cons, List.foldl_nil]
    exact (ih hrest).keep h

/-- A name's winner is its best candidate. -/
theorem Decides.winners_eq_some_iff (h : Decides name better candidates) {k : K} {c : F} :
    winners name better candidates k = some c ↔ IsBest name better candidates k c := by
  obtain ⟨hsome, hnone⟩ := h.decided_winners
  constructor
  · exact hsome k c
  · rintro ⟨hmem, hname, hbest⟩
    cases hwinner : winners name better candidates k with
    | none => exact absurd hname (hnone k hwinner c hmem)
    | some winner =>
      obtain ⟨hmem', hname', hbest'⟩ := hsome k winner hwinner
      by_contra hne
      have hne : winner ≠ c := fun heq => hne (congrArg some heq)
      exact h.asymm _ _ (hbest winner hmem' hname' hne) (hbest' c hmem hname hne.symm)

/-- A name has a winner when it has a candidate. -/
theorem Decides.isSome_winners_iff (h : Decides name better candidates) {k : K} :
    (winners name better candidates k).isSome ↔ ∃ c ∈ candidates, name c = k := by
  obtain ⟨hsome, hnone⟩ := h.decided_winners
  constructor
  · intro hwinner
    obtain ⟨c, hc⟩ := Option.isSome_iff_exists.1 hwinner
    exact ⟨c, (hsome k c hc).1, (hsome k c hc).2.1⟩
  · rintro ⟨c, hmem, hname⟩
    cases hwinner : winners name better candidates k with
    | none => exact absurd hname (hnone k hwinner c hmem)
    | some winner => rfl

end Winners
