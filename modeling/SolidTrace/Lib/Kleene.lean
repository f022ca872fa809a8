import Mathlib.Data.Option.Basic

/-!
# Three-valued truth

Kleene's strong logic on `Option Bool`, where `none` is a truth that is not decided. It is SQL's
logic of conditions, whose unknown is NULL.
-/

namespace Kleene

/-- False as soon as one side is, and true when both are. -/
def and : Option Bool → Option Bool → Option Bool
  | some false, _ => some false
  | _, some false => some false
  | some true, some true => some true
  | _, _ => none

/-- True as soon as one side is, and false when both are. -/
def or : Option Bool → Option Bool → Option Bool
  | some true, _ => some true
  | _, some true => some true
  | some false, some false => some false
  | _, _ => none

def not : Option Bool → Option Bool := Option.map Bool.not

variable {p q : Option Bool}

/-- A conjunction is true when both sides are. -/
@[simp]
theorem and_eq_true : and p q = some true ↔ p = some true ∧ q = some true := by
  rcases p with _ | _ | _ <;> rcases q with _ | _ | _ <;> decide

/-- A conjunction is false when one side is, whatever the other. -/
@[simp]
theorem and_eq_false : and p q = some false ↔ p = some false ∨ q = some false := by
  rcases p with _ | _ | _ <;> rcases q with _ | _ | _ <;> decide

/-- A disjunction is true when one side is, whatever the other. -/
@[simp]
theorem or_eq_true : or p q = some true ↔ p = some true ∨ q = some true := by
  rcases p with _ | _ | _ <;> rcases q with _ | _ | _ <;> decide

/-- A disjunction is false when both sides are. -/
@[simp]
theorem or_eq_false : or p q = some false ↔ p = some false ∧ q = some false := by
  rcases p with _ | _ | _ <;> rcases q with _ | _ | _ <;> decide

/-- A negation is true when its operand is false. -/
@[simp]
theorem not_eq_true : not p = some true ↔ p = some false := by
  rcases p with _ | _ | _ <;> decide

/-- A negation is false when its operand is true. -/
@[simp]
theorem not_eq_false : not p = some false ↔ p = some true := by
  rcases p with _ | _ | _ <;> decide

/-- What is decided stays so under each connective. -/
theorem and_isSome (hp : p.isSome) (hq : q.isSome) : (and p q).isSome := by
  rcases p with _ | _ | _ <;> rcases q with _ | _ | _ <;> simp [and] at *

/-- A disjunction of known values is known. -/
theorem or_isSome (hp : p.isSome) (hq : q.isSome) : (or p q).isSome := by
  rcases p with _ | _ | _ <;> rcases q with _ | _ | _ <;> simp [or] at *

/-- A negation of a known value is known. -/
theorem not_isSome (hp : p.isSome) : (not p).isSome := by
  rcases p with _ | _ | _ <;> simp [not] at *

end Kleene
