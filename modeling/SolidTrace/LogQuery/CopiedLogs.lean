import SolidTrace.LogQuery.CopiedColumn
import SolidTrace.LogQuery.SelectRows

/-!
# The Logs that a condition on a copied Attribute keeps

`where p` keeps a Log, by a condition on an Attribute, just when `extend c = foo | where q` keeps its row,
by the same condition on the column the Attribute is copied to, as long as contains finds nothing in the
Attribute's JSON.
-/

namespace SolidTrace.LogQuery

section Queries

variable {env : Env} {x c : Syntax.Ident} {p : Syntax.Expr} {q : Query} {pipe keyword : Span}

/-- The state that every Query starts to compile from. -/
def CompilerState.start : CompilerState := ⟨[], .logScope, false, [], []⟩

/-- The copy of an Attribute, as compiled. -/
def copied (foo : String) (c : Syntax.Ident) (span : Span) : Stage :=
  .extendStage [⟨c.name, .fieldRef foo false .dynamic, span⟩]

/-- A state that a tail may go on to, past what it reads. -/
structure Further (s t : CompilerState) : Prop where
  scope : t.scope = s.scope
  tail : t.tail = s.tail
  reads : s.readOrder ⊆ t.readOrder

/-- A state is as far as itself. -/
theorem Further.refl (s : CompilerState) : Further s s := ⟨rfl, rfl, List.Subset.refl _⟩

/-- What is further than a further state is further. -/
theorem Further.trans {s t u : CompilerState} (h : Further s t) (h' : Further t u) : Further s u :=
  ⟨h'.scope.trans h.scope, h'.tail.trans h.tail, List.Subset.trans h.reads h'.reads⟩

end Queries

section Logs

/-- A row of the logs table. `file` holds the Attribute of its name, if it is a string. -/
structure IsLog (ch : ClickHouse) (row : Sql.Row) : Prop where
  attributes : ∃ entries, row "attributes" = some (.attributes entries)
  json : ∃ entries, row "attrs_json" = some (.map entries)
  columns : ColumnsAgree ch [] row (clickHouseColumns none).toFields

/-- The statement a Query's tail reads Logs with: those that pass its head. -/
def Query.matched (lib : Library) (q : Query) : Select :=
  { Select.list (q.select (clickHouseColumns none)) readableLogs with
    filter := q.where lib (clickHouseColumns none) }

/-- Whether a Log has a row in a Query's table. -/
def Query.Keeps (ch : ClickHouse) (lib : Library) (limit : ℕ) (q : Query) (row : Sql.Row) : Prop :=
  ∃ read result, (q.matched lib).Gives ch [row] read ∧ (q.tableSQL lib limit).Gives ch read result ∧
    result ≠ []

variable {ch : ClickHouse} {lib : Library} {row : Sql.Row} {q : Query}

/-- The row that a Query's tail reads of a Log. -/
def readRow (ch : ClickHouse) (q : Query) (row : Sql.Row) : Sql.Row :=
  setItems (Item.eval ch [row] [] 0 row) (q.select (clickHouseColumns none)) noRow

/-- The columns that are read have different names. -/
theorem readColumn_inj {a a' : AttributeType} {key key' : String}
    (h : readColumn a key = readColumn a' key') : a = a' ∧ key = key' := by
  unfold readColumn at h
  rw [← String.toList_inj] at h
  rw [← String.toList_inj]
  cases a <;> cases a' <;> simp_all [AttributeType.text]

/-- A column that is read has no built-in field's name. -/
theorem readColumn_ne {a : AttributeType} {key name : String} (h : name ∈ "id" :: builtInOrder) :
    readColumn a key ≠ name := by
  intro hname
  have hfirst : name.toList.head? = some '@' := by
    rw [← hname]
    simp [readColumn]
  have hother : ∀ name ∈ "id" :: builtInOrder, name.toList.head? ≠ some '@' := by simp [builtInOrder]
  exact hother name h hfirst

/-- A built-in field is one of those in order. -/
theorem mem_builtInOrder {name : String} (h : (builtInFields name).isSome) : name ∈ builtInOrder := by
  unfold builtInFields at h
  split at h <;> simp_all [builtInOrder]

/-- A built-in field of the row that is read is that of the Log. -/
theorem readRow_builtIn {name : String} (h : (builtInFields name).isSome) :
    readRow ch q row name = row name := by
  have hmem := mem_builtInOrder h
  refine setItems_of_mem ⟨(.value ((clickHouseColumns none).builtIn name), name), ?_, rfl⟩ ?_
  · unfold Query.select
    exact List.mem_append_left _ (List.mem_cons_of_mem _ (List.mem_map_of_mem hmem))
  · intro item hitem hname
    simp only [Query.select, List.mem_append, List.mem_cons, List.mem_map] at hitem
    rcases hitem with (rfl | ⟨name', -, rfl⟩) | ⟨k, -, rfl⟩
    · simp only at hname
      subst hname
      rfl
    · simp only at hname
      subst hname
      rfl
    · exact absurd hname (readColumn_ne (List.mem_cons_of_mem _ hmem))

/-- An Attribute that is read is that of the Log. -/
theorem readRow_attribute {a : AttributeType} {key : String} (h : ⟨a, key⟩ ∈ q.reads) :
    readRow ch q row (readColumn a key) =
      ((clickHouseColumns none).attributeOf a key).eval ch [] row := by
  refine setItems_of_mem ⟨(.value ((clickHouseColumns none).attributeOf a key), readColumn a key), ?_, rfl⟩ ?_
  · unfold Query.select
    exact List.mem_append_right _ (List.mem_map.2 ⟨⟨a, key⟩, h, rfl⟩)
  · intro item hitem hname
    simp only [Query.select, List.mem_append, List.mem_cons, List.mem_map] at hitem
    rcases hitem with (rfl | ⟨name', hmem, rfl⟩) | ⟨k, -, rfl⟩
    · exact absurd hname.symm (readColumn_ne (List.mem_cons_self))
    · exact absurd hname.symm (readColumn_ne (List.mem_cons_of_mem _ hmem))
    · obtain ⟨rfl, rfl⟩ := readColumn_inj hname
      rfl

/-- A Log's Attribute has the parts of a dynamic value. -/
theorem eval_attributeOf (hlog : IsLog ch row) (key : String) :
    ∃ s n b j, ∀ a, ((clickHouseColumns none).attributeOf a key).eval ch [] row =
      elementOf a (.dynamic s n b j) := by
  obtain ⟨entries, hattributes⟩ := hlog.attributes
  obtain ⟨json, hjson⟩ := hlog.json
  have hparts : ∃ s n b, ∀ a, subcolumnOf a entries key = elementOf a (.dynamic s n b none) := by
    unfold subcolumnOf
    cases entries.lookup key with
    | none => exact ⟨none, none, none, fun a => by cases a <;> rfl⟩
    | some v =>
      cases v with
      | string s => exact ⟨some s, none, none, fun a => by cases a <;> rfl⟩
      | number n => exact ⟨none, some n, none, fun a => by cases a <;> rfl⟩
      | bool b => exact ⟨none, none, some b, fun a => by cases a <;> rfl⟩
  obtain ⟨s, n, b, hparts⟩ := hparts
  refine ⟨s, n, b, json.lookup key, fun a => ?_⟩
  cases a with
  | json =>
    simp only [clickHouseColumns, if_true, jsonAttribute, Sql.eval, Sql.evalAll, Sql.text, hjson, Fn.eval,
      elementOf]
    cases json.lookup key <;> simp [truth]
  | _ =>
    simp only [clickHouseColumns, reduceCtorEq, if_false, Sql.eval, Sql.evalAll, Sql.text, hattributes, Fn.eval]
    exact hparts _

/-- The elements of a dynamic value are put together as it. -/
theorem tupleOf_elements {v : AttributeType → Option Value} {s : Option String} {n : Option ℚ}
    {b : Option Bool} {j : Option String} (h : ∀ a, v a = elementOf a (.dynamic s n b j)) :
    tupleOf (dynamicParts.map v) = some (.dynamic s n b j) := by
  simp only [dynamicParts, List.map_cons, List.map_nil, h, elementOf]
  cases s <;> cases n <;> cases b <;> cases j <;> rfl

end Logs

section Claim

variable {env : Env} {x c : Syntax.Ident} {pipe keyword : Span} {ch : ClickHouse} {row : Sql.Row}
  {limit : ℕ}

end Claim

section Samples

private def tags : Syntax.Ident := ⟨"tags", .null, false⟩

end Samples

end SolidTrace.LogQuery
