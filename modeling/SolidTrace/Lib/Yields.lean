import Mathlib.Init

/-!
# What a computation that may fail yields

Partial correctness for computations with a state that may stop with an error: whatever they yield,
from any state, meets a condition. `Yields` leaves the state out, `YieldsFrom` keeps an invariant of
it, and `YieldsTo` says what becomes of it.
-/

section

variable {σ ε α β : Type}

section Runs

variable {x : StateT σ (Except ε) α} {g : α → StateT σ (Except ε) β} {s s' t : σ} {a : α} {b : β}

/-- A first step that succeeds hands its state to the rest. -/
theorem run_bind_of_ok (h : x.run s = .ok (a, s')) : (x >>= g).run s = (g a).run s' := by
  rw [StateT.run_bind, h]
  rfl

/-- What two computations give in a row, they give one after the other. -/
theorem exists_of_run_bind (h : (x >>= g).run s = .ok (b, t)) :
    ∃ a s', x.run s = .ok (a, s') ∧ (g a).run s' = .ok (b, t) := by
  cases hrun : x.run s with
  | error e =>
    rw [StateT.run_bind, hrun] at h
    cases h
  | ok r =>
    rw [run_bind_of_ok hrun] at h
    exact ⟨r.1, r.2, rfl, h⟩

/-- What run' answers, run answers with some state. -/
theorem exists_of_run' (h : x.run' s = .ok a) : ∃ t, x.run s = .ok (a, t) := by
  rw [StateT.run'_eq] at h
  cases hrun : x.run s with
  | error e =>
    rw [hrun] at h
    cases h
  | ok r =>
    rw [hrun] at h
    cases h
    exact ⟨r.2, rfl⟩

/-- What run answers, run' answers without the state. -/
theorem run'_of_run (h : x.run s = .ok (a, t)) : x.run' s = .ok a := by
  rw [StateT.run'_eq, h]
  rfl

end Runs

/-- Whatever the computation yields meets `P`. -/
def Yields (x : StateT σ (Except ε) α) (P : α → Prop) : Prop :=
  ∀ s a s', x.run s = .ok (a, s') → P a

namespace Yields

variable {x : StateT σ (Except ε) α} {g : α → StateT σ (Except ε) β} {P P' : α → Prop}
  {Q : β → Prop}

/-- A value that is returned is the only result. -/
theorem pure {a : α} (h : P a) : Yields (pure a : StateT σ (Except ε) α) P := by
  intro s b s' hrun
  cases hrun
  exact h

/-- An error yields no value, so it yields anything. -/
theorem throw {e : ε} : Yields (throw e : StateT σ (Except ε) α) P := by
  intro s a s' hrun
  cases hrun

/-- Whatever the first step yields, the second starts from it. -/
theorem bind (hx : Yields x P) (hg : ∀ a, P a → Yields (g a) Q) : Yields (x >>= g) Q := by
  intro s b s' hrun
  obtain ⟨a, s₁, hfirst, hnext⟩ := exists_of_run_bind hrun
  exact hg a (hx s a s₁ hfirst) s₁ b s' hnext

/-- Every program yields something or fails. -/
theorem trivial : Yields x fun _ => True := fun _ _ _ _ => True.intro

/-- A step whose result does not matter. -/
theorem seq (hg : ∀ a, Yields (g a) Q) : Yields (x >>= g) Q :=
  trivial.bind fun a _ => hg a

/-- A weaker postcondition is yielded too. -/
theorem mono (hx : Yields x P) (h : ∀ a, P a → P' a) : Yields x P' := by
  intro s a s' hrun
  exact h a (hx s a s' hrun)

/-- A branch yields what both of its sides yield, each under its own condition. -/
theorem ite {c : Prop} [Decidable c] {y : StateT σ (Except ε) α} (hx : c → Yields x P)
    (hy : ¬c → Yields y P) : Yields (if c then x else y) P := by
  split
  · exact hx ‹_›
  · exact hy ‹_›

/-- What a whole run gives. -/
theorem run' {s : σ} {a : α} (hx : Yields x P) (h : x.run' s = .ok a) : P a := by
  obtain ⟨s', hrun⟩ := exists_of_run' h
  exact hx s a s' hrun

end Yields

/-- From a state that meets `I`, whatever the computation yields and the state it ends in meet
`P`. -/
def YieldsTo (I : σ → Prop) (x : StateT σ (Except ε) α) (P : α → σ → Prop) : Prop :=
  ∀ s a s', I s → x.run s = .ok (a, s') → P a s'

namespace YieldsTo

variable {I I' : σ → Prop} {x : StateT σ (Except ε) α} {g : α → StateT σ (Except ε) β}
  {P P' : α → σ → Prop} {Q : β → σ → Prop}

/-- Returning keeps the state as it was. -/
theorem pure {a : α} (h : ∀ s, I s → P a s) : YieldsTo I (pure a : StateT σ (Except ε) α) P := by
  intro s b s' hs hrun
  cases hrun
  exact h s hs

/-- An error leaves no state to speak of. -/
theorem throw {e : ε} : YieldsTo I (throw e : StateT σ (Except ε) α) P := by
  intro s a s' hs hrun
  cases hrun

/-- The first step's postcondition is the second's precondition. -/
theorem bind (hx : YieldsTo I x P) (hg : ∀ a, YieldsTo (P a) (g a) Q) : YieldsTo I (x >>= g) Q := by
  intro s b s' hs hrun
  obtain ⟨a, s₁, hfirst, hnext⟩ := exists_of_run_bind hrun
  exact hg a s₁ b s' (hx s a s₁ hs hfirst) hnext

/-- Reading the state changes nothing, and what was read is the state. -/
theorem get : YieldsTo I (get : StateT σ (Except ε) σ) fun s s' => s = s' ∧ I s := by
  intro s a s' hs hrun
  cases hrun
  exact ⟨rfl, hs⟩

/-- A change of the state establishes what it makes true of each state. -/
theorem modify {f : σ → σ} {J : σ → Prop} (h : ∀ s, I s → J (f s)) :
    YieldsTo I (modify f : StateT σ (Except ε) PUnit) fun _ => J := by
  intro s a s' hs hrun
  cases hrun
  exact h s hs

/-- A weaker postcondition holds too. -/
theorem mono (hx : YieldsTo I x P) (h : ∀ a s, P a s → P' a s) : YieldsTo I x P' := by
  intro s a s' hs hrun
  exact h a s' (hx s a s' hs hrun)

/-- A stronger precondition is enough. -/
theorem pre (hx : YieldsTo I x P) (h : ∀ s, I' s → I s) : YieldsTo I' x P := by
  intro s a s' hs hrun
  exact hx s a s' (h s hs) hrun

/-- What is known of every state the computation starts from. -/
theorem intro_pre {p : Prop} (h : p → YieldsTo I x P) : YieldsTo (fun s => p ∧ I s) x P := by
  intro s a s' hs hrun
  exact h hs.1 s a s' hs.2 hrun

/-- A branch is followed on both of its sides, each under its own condition. -/
theorem ite {c : Prop} [Decidable c] {y : StateT σ (Except ε) α} (hx : c → YieldsTo I x P)
    (hy : ¬c → YieldsTo I y P) : YieldsTo I (if c then x else y) P := by
  split
  · exact hx ‹_›
  · exact hy ‹_›

/-- What a whole run gives. -/
theorem run' {s : σ} {a : α} (hx : YieldsTo I x P) (hs : I s) (h : x.run' s = .ok a) :
    ∃ s', P a s' := by
  obtain ⟨s', hrun⟩ := exists_of_run' h
  exact ⟨s', hx s a s' hs hrun⟩

end YieldsTo

/-- From a state that meets `I`, whatever the computation yields meets `P`, and it keeps `I`. -/
def YieldsFrom (I : σ → Prop) (x : StateT σ (Except ε) α) (P : α → Prop) : Prop :=
  YieldsTo I x fun a s => P a ∧ I s

namespace YieldsFrom

variable {I : σ → Prop} {x : StateT σ (Except ε) α} {g : α → StateT σ (Except ε) β}
  {P P' : α → Prop} {Q : β → Prop}

/-- Returning keeps the invariant. -/
theorem pure {a : α} (h : P a) : YieldsFrom I (pure a : StateT σ (Except ε) α) P :=
  YieldsTo.pure fun _ hs => ⟨h, hs⟩

/-- An error keeps the invariant, as no state is left. -/
theorem throw {e : ε} : YieldsFrom I (throw e : StateT σ (Except ε) α) P := YieldsTo.throw

/-- Two steps that keep the invariant keep it one after the other. -/
theorem bind (hx : YieldsFrom I x P) (hg : ∀ a, P a → YieldsFrom I (g a) Q) :
    YieldsFrom I (x >>= g) Q :=
  YieldsTo.bind hx fun a => YieldsTo.intro_pre (hg a)

/-- What is read of a state meets what the state does. -/
theorem get : YieldsFrom I (get : StateT σ (Except ε) σ) I :=
  YieldsTo.get.mono fun _ _ h => ⟨h.2, h.1 ▸ h.2⟩

/-- A change that keeps the invariant yields nothing else. -/
theorem modify {f : σ → σ} (h : ∀ s, I s → I (f s)) :
    YieldsFrom I (modify f : StateT σ (Except ε) PUnit) fun _ => True :=
  (YieldsTo.modify h).mono fun _ _ hs => ⟨trivial, hs⟩

/-- A weaker postcondition is yielded too, and the invariant is kept all the same. -/
theorem mono (hx : YieldsFrom I x P) (h : ∀ a, P a → P' a) : YieldsFrom I x P' :=
  YieldsTo.mono hx fun a _ ha => ⟨h a ha.1, ha.2⟩

/-- A branch keeps the invariant when both of its sides do. -/
theorem ite {c : Prop} [Decidable c] {y : StateT σ (Except ε) α} (hx : c → YieldsFrom I x P)
    (hy : ¬c → YieldsFrom I y P) : YieldsFrom I (if c then x else y) P := YieldsTo.ite hx hy

/-- A list's elements one after another. -/
theorem forM {γ : Type} {f : γ → StateT σ (Except ε) PUnit} {xs : List γ}
    (h : ∀ c ∈ xs, YieldsFrom I (f c) fun _ => True) : YieldsFrom I (xs.forM f) fun _ => True := by
  induction xs with
  | nil => exact pure trivial
  | cons c xs ih =>
    change YieldsFrom I (f c >>= fun _ => xs.forM f) _
    refine (h c List.mem_cons_self).bind fun _ _ => ?_
    exact ih fun c hc => h c (List.mem_cons_of_mem _ hc)

/-- A step for each element keeps the invariant, and each result is as its step yields it. -/
theorem mapM {γ : Type} {f : γ → StateT σ (Except ε) α} {xs : List γ}
    (h : ∀ c ∈ xs, YieldsFrom I (f c) P) : YieldsFrom I (xs.mapM f) fun as => ∀ a ∈ as, P a := by
  induction xs with
  | nil => exact pure nofun
  | cons c xs ih =>
    rw [List.mapM_cons]
    refine (h c List.mem_cons_self).bind fun a ha => ?_
    refine (ih fun c hc => h c (List.mem_cons_of_mem _ hc)).bind fun as has => pure ?_
    exact List.forall_mem_cons.2 ⟨ha, has⟩

end YieldsFrom

end
