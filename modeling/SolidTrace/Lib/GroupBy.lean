import Mathlib.Data.List.Perm.Basic

/-!
# Grouping by a key

The elements of a list that share a key, together and in order, the groups in the order of their first
elements.
-/

namespace SolidTrace.Lib

variable {α K : Type*} [DecidableEq K] (key : α → K)

/-- Add an element to its key's group, or as a group of its own. -/
def addToGroup (a : α) : List (K × List α) → List (K × List α)
  | [] => [(key a, [a])]
  | group :: rest =>
    if group.1 = key a then (group.1, group.2 ++ [a]) :: rest else group :: addToGroup a rest

/-- The groups of a list by a key. -/
def groupBy (list : List α) : List (List α) :=
  (list.foldl (fun groups a => addToGroup key a groups) []).map Prod.snd

variable {key}

/-- Adding to a group adds one element to all of them together. -/
theorem flatten_addToGroup (a : α) (groups : List (K × List α)) :
    ((addToGroup key a groups).map Prod.snd).flatten.Perm ((groups.map Prod.snd).flatten ++ [a]) := by
  induction groups with
  | nil => exact .refl _
  | cons group rest ih =>
    unfold addToGroup
    split
    · simp only [List.map_cons, List.flatten_cons, List.append_assoc]
      apply List.Perm.append_left
      exact List.perm_append_comm
    · simp only [List.map_cons, List.flatten_cons, List.append_assoc]
      exact ih.append_left _

/-- Every element is in one group. -/
theorem flatten_groupBy (list : List α) : (groupBy key list).flatten.Perm list := by
  have hfold : ∀ groups : List (K × List α),
      ((list.foldl (fun groups a => addToGroup key a groups) groups).map Prod.snd).flatten.Perm
        ((groups.map Prod.snd).flatten ++ list) := by
    induction list with
    | nil => intro groups; simp
    | cons a rest ih =>
      intro groups
      apply (ih (addToGroup key a groups)).trans
      have hadd := (@flatten_addToGroup α K _ key a groups).append_right rest
      simpa using hadd
  simpa [groupBy] using hfold []

/-- A group that something was added to is not empty, and the others were not. -/
theorem addToGroup_ne_nil {a : α} {groups : List (K × List α)}
    (hgroups : ∀ group ∈ groups, group.2 ≠ []) : ∀ group ∈ addToGroup key a groups, group.2 ≠ [] := by
  induction groups with
  | nil => simp [addToGroup]
  | cons first rest ih =>
    rw [List.forall_mem_cons] at hgroups
    unfold addToGroup
    split
    · exact List.forall_mem_cons.mpr ⟨by simp, hgroups.2⟩
    · exact List.forall_mem_cons.mpr ⟨hgroups.1, ih hgroups.2⟩

/-- No group is empty after any number of elements. -/
theorem foldl_addToGroup_ne_nil (list : List α) {groups : List (K × List α)}
    (hgroups : ∀ group ∈ groups, group.2 ≠ []) :
    ∀ group ∈ list.foldl (fun groups a => addToGroup key a groups) groups, group.2 ≠ [] := by
  induction list generalizing groups with
  | nil => exact hgroups
  | cons a rest ih => exact ih (addToGroup_ne_nil hgroups)

/-- No group is empty. -/
theorem ne_nil_of_mem_groupBy {list group : List α} (hgroup : group ∈ groupBy key list) :
    group ≠ [] := by
  obtain ⟨entry, hentry, rfl⟩ := List.mem_map.mp hgroup
  exact foldl_addToGroup_ne_nil list (by simp) entry hentry

end SolidTrace.Lib
