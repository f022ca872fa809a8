import Mathlib.Data.List.Basic

/-!
# Escapes

A text written with escapes: each character as itself, or as a marker and a name for it. A writer makes
one by replacing characters one by one, or one kind of character after another.
-/

namespace Escapes

variable {α : Type*}

/-- A text and how it is written. `names e a` says that `e` stands for `a` after the marker. -/
inductive Written (marker : α) (plain : α → Prop) (names : α → α → Prop) : List α → List α → Prop
  | nil : Written marker plain names [] []
  | plain {a : α} {text body : List α} (ha : plain a) (h : Written marker plain names text body) :
    Written marker plain names (a :: text) (a :: body)
  | escaped {a e : α} {text body : List α} (he : names e a) (h : Written marker plain names text body) :
    Written marker plain names (a :: text) (marker :: e :: body)

section Writers

variable {marker : α} {plain : α → Prop} {names : α → α → Prop} {write : α → List α}

/-- Writing character by character. -/
theorem Written.flatMap (h : ∀ a, plain a ∧ write a = [a] ∨ ∃ e, names e a ∧ write a = [marker, e])
    (text : List α) : Written marker plain names text (text.flatMap write) := by
  induction text with
  | nil => exact .nil
  | cons a text ih =>
    rw [List.flatMap_cons]
    rcases h a with ⟨ha, hw⟩ | ⟨e, he, hw⟩
    · rw [hw]
      exact ih.plain ha
    · rw [hw]
      exact ih.escaped he

/-- What holds of the plain characters, the marker and the names holds of what is written. -/
theorem Written.forall_mem {text body : List α} (h : Written marker plain names text body) {P : α → Prop}
    (hplain : ∀ a, plain a → P a) (hmarker : P marker) (hnames : ∀ e a, names e a → P e) :
    ∀ c ∈ body, P c := by
  induction h with
  | nil => exact nofun
  | plain ha _ ih => exact List.forall_mem_cons.2 ⟨hplain _ ha, ih⟩
  | escaped he _ ih => exact List.forall_mem_cons.2 ⟨hmarker, List.forall_mem_cons.2 ⟨hnames _ _ he, ih⟩⟩

variable [DecidableEq α]

/-- Put a text in place of each character of a kind. -/
def replaceAll (a : α) (by' : List α) (text : List α) : List α :=
  text.flatMap fun c => if c = a then by' else [c]

/-- Nothing to replace in an empty text. -/
@[simp] theorem replaceAll_nil (a : α) (by' : List α) : replaceAll a by' [] = [] := rfl

/-- Replacing goes one element at a time. -/
@[simp] theorem replaceAll_cons (a c : α) (by' text : List α) :
    replaceAll a by' (c :: text) = (if c = a then by' else [c]) ++ replaceAll a by' text :=
  List.flatMap_cons

/-- Replacing in what was written character by character replaces in each character's writing. -/
theorem replaceAll_flatMap (a : α) (by' : List α) (write : α → List α) (text : List α) :
    replaceAll a by' (text.flatMap write) = text.flatMap fun c => replaceAll a by' (write c) :=
  List.flatMap_assoc

end Writers

section Ends

variable [DecidableEq α]

/-- Whether what follows a text is escaped by a marker in it, where it starts escaped or not. -/
def escapes (marker : α) : Bool → List α → Bool
  | escaped, [] => escaped
  | escaped, a :: text => escapes marker (!escaped && a = marker) text

/-- Each closing character in a text is escaped. -/
def Closed (marker close : α) (body : List α) : Prop :=
  ∀ before after, body = before ++ close :: after → escapes marker false before = true

/-- A closing character that isn't plain is escaped wherever it is written. -/
theorem Written.closed {marker close : α} {plain : α → Prop} {names : α → α → Prop} {text body : List α}
    (h : Written marker plain names text body) (hmarker : ¬ plain marker) (hclose : ¬ plain close)
    (hne : close ≠ marker) : Closed marker close body := by
  induction h with
  | nil => exact fun before after h => absurd h.symm (List.append_ne_nil_of_right_ne_nil _ (List.cons_ne_nil _ _))
  | @plain a text body ha h ih =>
    intro before after heq
    cases before with
    | nil =>
      obtain ⟨rfl, -⟩ := List.cons.inj heq
      exact absurd ha hclose
    | cons b before =>
      obtain ⟨rfl, hrest⟩ := List.cons.inj heq
      have hplain : a ≠ marker := by
        rintro rfl
        exact hmarker ha
      simp only [escapes, hplain, decide_false, Bool.and_false]
      exact ih before after hrest
  | @escaped a e text body he h ih =>
    intro before after heq
    cases before with
    | nil => exact absurd (List.cons.inj heq).1.symm hne
    | cons b before =>
      obtain ⟨rfl, hrest⟩ := List.cons.inj heq
      cases before with
      | nil => simp [escapes]
      | cons c before =>
        simp only [escapes, Bool.not_false, decide_true, Bool.and_true, Bool.not_true, Bool.false_and]
        exact ih before after (List.cons.inj hrest).2

end Ends

end Escapes
