import SolidTrace.LogQuery.Table

/-!
# The rows a SELECT gives

What the rows of a statement's result are made of, and what a statement makes of one row.
-/

namespace SolidTrace.LogQuery

section Columns

variable {value : Item → Option Value} {items : List (Item × String)} {row : Sql.Row} {name : String}

/-- A column set by a select list has the value of the last item of its name. -/
theorem setItems_apply : setItems value items row name =
    match (items.filter fun item => item.2 = name).getLast? with
      | some item => value item.1
      | none => row name := by
  unfold setItems
  induction items generalizing row with
  | nil => rfl
  | cons item rest ih =>
    rw [List.foldl_cons, ih, List.filter_cons]
    by_cases hname : item.2 = name
    · simp only [hname, decide_true, if_true, List.getLast?_cons]
      cases (rest.filter fun item => item.2 = name).getLast? <;> simp
    · simp [hname, Ne.symm hname]

/-- Of items of one name that are alike, any is the column. -/
theorem setItems_of_mem {v : Option Value} (hmem : ∃ item ∈ items, item.2 = name)
    (h : ∀ item ∈ items, item.2 = name → value item.1 = v) : setItems value items row name = v := by
  rw [setItems_apply]
  cases hlast : (items.filter fun item => item.2 = name).getLast? with
  | none =>
    obtain ⟨item, hitem, hname⟩ := hmem
    have hnil := List.getLast?_eq_none_iff.1 hlast
    rw [List.filter_eq_nil_iff] at hnil
    exact absurd (by simpa using hname) (hnil item hitem)
  | some item =>
    have hitem := List.mem_of_getLast? hlast
    simp only [List.mem_filter, decide_eq_true_eq] at hitem
    exact h item hitem.1 hitem.2

end Columns

section OneRow

variable {ch : ClickHouse} {s : Select} {result : List Sql.Row}

/-- What a statement makes of one row by itself, if the row passes its filter. -/
def Select.ofRow (ch : ClickHouse) (s : Select) (row : Sql.Row) : Option Sql.Row :=
  if s.passes ch row then some (s.rowOf ch [row] [] 0 row) else none

end OneRow

end SolidTrace.LogQuery
