import SolidTrace.Lib.Yields

/-!
# Two computations side by side

Two computations with a state that may stop with an error, run from related states: both fail, or
both succeed with related results and end in related states. A computation that relates to itself by a
relation on states depends on no more of its state than the relation tells apart.
-/

section

variable {σ ε α α' β β' : Type}

/-- How two runs end alike. -/
inductive SameOutcome (R : σ → σ → Prop) (S : α → β → Prop) :
    Except ε (α × σ) → Except ε (β × σ) → Prop
  | ok {a : α} {b : β} {s t : σ} (hab : S a b) (hst : R s t) : SameOutcome R S (.ok (a, s)) (.ok (b, t))
  | error {e e' : ε} : SameOutcome R S (.error e) (.error e')

/-- From related states, two computations end alike. -/
def Relates (R : σ → σ → Prop) (S : α → β → Prop) (x : StateT σ (Except ε) α)
    (y : StateT σ (Except ε) β) : Prop :=
  ∀ s t, R s t → SameOutcome R S (x.run s) (y.run t)

namespace Relates

variable {R : σ → σ → Prop} {S S' : α → β → Prop} {T : α' → β' → Prop}
  {x : StateT σ (Except ε) α} {y : StateT σ (Except ε) β}
  {g : α → StateT σ (Except ε) α'} {h : β → StateT σ (Except ε) β'}

/-- Related values returned from related states. -/
theorem pure {a : α} {b : β} (hab : S a b) :
    Relates R S (pure a : StateT σ (Except ε) α) (pure b) := fun _ _ hst => .ok hab hst

/-- Two errors are related, whatever they say. -/
theorem throw {e e' : ε} : Relates R S (throw e : StateT σ (Except ε) α) (throw e') :=
  fun _ _ _ => .error

/-- Related first steps hand related values and states to the rest. -/
theorem bind (hxy : Relates R S x y) (hgh : ∀ a b, S a b → Relates R T (g a) (h b)) :
    Relates R T (x >>= g) (y >>= h) := by
  intro s t hst
  have hfirst := hxy s t hst
  rw [StateT.run_bind, StateT.run_bind]
  generalize x.run s = r at hfirst ⊢
  generalize y.run t = r' at hfirst ⊢
  cases hfirst with
  | ok hab hst' => exact hgh _ _ hab _ _ hst'
  | error => exact .error

/-- The same result, and what comes after it. -/
theorem bind_eq {h : α → StateT σ (Except ε) β'} {y : StateT σ (Except ε) α} (hxy : Relates R Eq x y)
    (hgh : ∀ a, Relates R T (g a) (h a)) : Relates R T (x >>= g) (y >>= h) := by
  refine hxy.bind fun a b hab => ?_
  subst hab
  exact hgh a

/-- Reading related states gives related states. -/
theorem get : Relates R R (get : StateT σ (Except ε) σ) get := fun _ _ hst => .ok hst hst

/-- Related changes of related states. -/
theorem modify {f f' : σ → σ} (hf : ∀ s t, R s t → R (f s) (f' t)) :
    Relates R Eq (modify f : StateT σ (Except ε) PUnit) (modify f') :=
  fun s t hst => .ok rfl (hf s t hst)

/-- Results related more closely are related more loosely. -/
theorem mono (hxy : Relates R S x y) (hS : ∀ a b, S a b → S' a b) : Relates R S' x y := by
  intro s t hst
  have houtcome := hxy s t hst
  generalize x.run s = r at houtcome ⊢
  generalize y.run t = r' at houtcome ⊢
  cases houtcome with
  | ok hab hst' => exact .ok (hS _ _ hab) hst'
  | error => exact .error

/-- Two computations that test alike. -/
theorem ite {c c' : Prop} [Decidable c] [Decidable c'] {x' : StateT σ (Except ε) α}
    {y' : StateT σ (Except ε) β} (hc : c ↔ c') (hxy : c → c' → Relates R S x y)
    (hxy' : ¬c → ¬c' → Relates R S x' y') :
    Relates R S (if c then x else x') (if c' then y else y') := by
  by_cases h : c
  · rw [if_pos h, if_pos (hc.1 h)]
    exact hxy h (hc.1 h)
  · rw [if_neg h, if_neg fun h' => h (hc.2 h')]
    exact hxy' h fun h' => h (hc.2 h')

/-- Two computations that make the same test. -/
theorem ite_same {c : Prop} [Decidable c] {x' : StateT σ (Except ε) α} {y' : StateT σ (Except ε) β}
    (hxy : c → Relates R S x y) (hxy' : ¬c → Relates R S x' y') :
    Relates R S (if c then x else x') (if c then y else y') :=
  ite Iff.rfl (fun h _ => hxy h) fun h _ => hxy' h

/-- A step of the first computation alone. -/
theorem seq_left {u : StateT σ (Except ε) PUnit}
    (hu : ∀ s t, R s t → ∃ s', u.run s = .ok ((), s') ∧ R s' t) (hxy : Relates R S x y) :
    Relates R S (u >>= fun _ => x) y := by
  intro s t hst
  obtain ⟨s', hrun, hst'⟩ := hu s t hst
  rw [StateT.run_bind, hrun]
  exact hxy s' t hst'

/-- What the first computation gives besides. -/
theorem and_left {P : α → Prop} (hxy : Relates R S x y)
    (hx : ∀ s t a s', R s t → x.run s = .ok (a, s') → P a) :
    Relates R (fun a b => S a b ∧ P a) x y := by
  intro s t hst
  have houtcome := hxy s t hst
  have hgives := hx s t
  generalize x.run s = r at houtcome hgives ⊢
  generalize y.run t = r' at houtcome ⊢
  cases houtcome with
  | ok hab hst' => exact .ok ⟨hab, hgives _ _ hst rfl⟩ hst'
  | error => exact .error

/-- Two computations relate the other way round. -/
theorem symm {y : StateT σ (Except ε) α} (hR : ∀ s t, R s t → R t s) (hxy : Relates R Eq x y) :
    Relates R Eq y x := by
  intro s t hst
  have houtcome := hxy t s (hR _ _ hst)
  generalize x.run t = r at houtcome ⊢
  generalize y.run s = r' at houtcome ⊢
  cases houtcome with
  | ok hab hst' => exact .ok hab.symm (hR _ _ hst')
  | error => exact .error

/-- Computations that relate to one between them relate. -/
theorem trans {y z : StateT σ (Except ε) α} (hrefl : ∀ s, R s s) (htrans : ∀ s t u, R s t → R t u → R s u)
    (hxy : Relates R Eq x y) (hyz : Relates R Eq y z) : Relates R Eq x z := by
  intro s t hst
  have hfirst := hxy s t hst
  have hsecond := hyz t t (hrefl t)
  generalize x.run s = r at hfirst ⊢
  generalize y.run t = r' at hfirst hsecond
  generalize z.run t = r'' at hsecond ⊢
  cases hfirst with
  | ok hab hst' =>
    cases hsecond with
    | ok hbc htu => exact .ok (hab.trans hbc) (htrans _ _ _ hst' htu)
  | error =>
    cases hsecond
    exact .error

/-- What the second run gives where the first gives something. -/
theorem exists_ok (hxy : Relates R S x y) {s t s' : σ} {a : α} (hst : R s t)
    (hrun : x.run s = .ok (a, s')) : ∃ b t', y.run t = .ok (b, t') ∧ S a b ∧ R s' t' := by
  have houtcome := hxy s t hst
  rw [hrun] at houtcome
  generalize y.run t = r at houtcome ⊢
  cases houtcome with
  | ok hab hst' => exact ⟨_, _, rfl, hab, hst'⟩

end Relates

/-- A computation that depends on no more of its state than a relation tells apart. -/
def Respects (R : σ → σ → Prop) (x : StateT σ (Except ε) α) : Prop := Relates R Eq x x

namespace Respects

variable {R : σ → σ → Prop} {x x' : StateT σ (Except ε) α} {g : α → StateT σ (Except ε) α'}

/-- Returning reads nothing of the state. -/
theorem pure {a : α} : Respects R (pure a : StateT σ (Except ε) α) := Relates.pure rfl

/-- An error reads nothing of the state. -/
theorem throw {e : ε} : Respects R (throw e : StateT σ (Except ε) α) := Relates.throw

/-- Two steps that respect the relation respect it one after the other. -/
theorem bind (hx : Respects R x) (hg : ∀ a, Respects R (g a)) : Respects R (x >>= g) :=
  Relates.bind_eq hx hg

/-- Read the state, and go on alike from related ones. -/
theorem get_bind {k : σ → StateT σ (Except ε) α} (hk : ∀ s t, R s t → Relates R Eq (k s) (k t)) :
    Respects R (get >>= k) := Relates.bind Relates.get hk

/-- A change of the state that the relation is closed under. -/
theorem modify {f : σ → σ} (hf : ∀ s t, R s t → R (f s) (f t)) :
    Respects R (modify f : StateT σ (Except ε) PUnit) := Relates.modify hf

/-- A branch on something outside the state respects the relation when both sides do. -/
theorem ite {c : Prop} [Decidable c] (hx : c → Respects R x) (hx' : ¬c → Respects R x') :
    Respects R (if c then x else x') := Relates.ite_same hx hx'

/-- A step for each element respects the relation. -/
theorem forM {γ : Type} {f : γ → StateT σ (Except ε) PUnit} {xs : List γ}
    (h : ∀ c, Respects R (f c)) : Respects R (xs.forM f) := by
  induction xs with
  | nil => exact pure
  | cons c xs ih => exact (h c).bind fun _ => ih

/-- Collecting the results of a step for each element respects the relation. -/
theorem mapM {γ : Type} {f : γ → StateT σ (Except ε) α} {xs : List γ} (h : ∀ c, Respects R (f c)) :
    Respects R (xs.mapM f) := by
  induction xs with
  | nil => exact pure
  | cons c xs ih =>
    rw [List.mapM_cons]
    exact (h c).bind fun _ => ih.bind fun _ => pure

end Respects

namespace Relates

variable {R : σ → σ → Prop} {γ : Type} {f : γ → StateT σ (Except ε) PUnit} {p : γ → Bool}

/-- What tells no state apart may be left out of what is done for each. -/
theorem forM_filter_self (hf : ∀ c, Respects R (f c)) (htrans : ∀ s t u, R s t → R t u → R s u)
    (haside : ∀ c, p c = false → ∀ s, ∃ s', (f c).run s = .ok ((), s') ∧ R s' s) (xs : List γ) :
    Relates R Eq (xs.forM f) ((xs.filter p).forM f) := by
  induction xs with
  | nil => exact pure rfl
  | cons c xs ih =>
    cases hp : p c with
    | true =>
      rw [List.filter_cons_of_pos hp]
      exact bind_eq (hf c) fun _ => ih
    | false =>
      rw [List.filter_cons_of_neg (by simp [hp])]
      refine seq_left (fun s t hst => ?_) ih
      obtain ⟨s', hrun, hs'⟩ := haside c hp s
      exact ⟨s', hrun, htrans _ _ _ hs' hst⟩

/-- What is done for each of two lists that are the same but for what tells no state apart. -/
theorem forM_filter (hrefl : ∀ s, R s s) (hsymm : ∀ s t, R s t → R t s)
    (htrans : ∀ s t u, R s t → R t u → R s u) (hf : ∀ c, Respects R (f c))
    (haside : ∀ c, p c = false → ∀ s, ∃ s', (f c).run s = .ok ((), s') ∧ R s' s) {xs ys : List γ}
    (h : xs.filter p = ys.filter p) : Relates R Eq (xs.forM f) (ys.forM f) := by
  have hfiltered : ∀ xs : List γ, Relates R Eq (xs.forM f) ((xs.filter p).forM f) :=
    forM_filter_self hf htrans haside
  exact (hfiltered xs).trans hrefl htrans (h ▸ (hfiltered ys).symm hsymm)

end Relates

/-- Whatever the first computation gives, the second gives something related from a related state. The
second may succeed where the first fails. -/
def Follows (R : σ → σ → Prop) (S : α → β → Prop) (x : StateT σ (Except ε) α)
    (y : StateT σ (Except ε) β) : Prop :=
  ∀ s t, R s t → ∀ a s', x.run s = .ok (a, s') → ∃ b t', y.run t = .ok (b, t') ∧ S a b ∧ R s' t'

namespace Follows

variable {R : σ → σ → Prop} {S : α → β → Prop} {T : α' → β' → Prop}
  {x : StateT σ (Except ε) α} {y : StateT σ (Except ε) β}
  {g : α → StateT σ (Except ε) α'} {h : β → StateT σ (Except ε) β'}

/-- What is related both ways is followed one way. -/
theorem ofRelates (hxy : Relates R S x y) : Follows R S x y :=
  fun _ _ hst _ _ hrun => hxy.exists_ok hst hrun

/-- Following goes through the first step and then the rest. -/
theorem bind (hxy : Follows R S x y) (hgh : ∀ a b, S a b → Follows R T (g a) (h b)) :
    Follows R T (x >>= g) (y >>= h) := by
  intro s t hst b s' hrun
  obtain ⟨a, s₁, hfirst, hnext⟩ := exists_of_run_bind hrun
  obtain ⟨a', t₁, hrun₁, hab, hst₁⟩ := hxy s t hst a s₁ hfirst
  obtain ⟨b', t', hrun', hbb, hst'⟩ := hgh a a' hab s₁ t₁ hst₁ b s' hnext
  exact ⟨b', t', by rw [run_bind_of_ok hrun₁, hrun'], hbb, hst'⟩

end Follows

end
