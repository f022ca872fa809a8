import Mathlib
import SolidTrace.LogQuery.CopiedLogs
import SolidTrace.LogQuery.FieldValues

/-!
# The table of a Field's values

What the Query of a Field's values compiles to, and the rows its table may have.
-/

namespace SolidTrace.LogQuery

section Compiling

variable (env : Env) (slug field : String) (at' : ℕ → Span)

/-- The value of a Field that is named without a type. -/
def fieldValue : Expr :=
  match builtInFields field with
  | some t => .fieldRef field true t
  | none => .fieldRef field false .dynamic

/-- The column that a Field's values are in: one without a name is named by its place. -/
def fieldColumn : String := if field == "" then "Column1" else field

/-- The Attributes that a Field's values are read from. -/
def fieldReads : List AttrKey :=
  match builtInFields field with
  | some _ => []
  | none => dynamicParts.map fun t => ⟨t, field⟩

/-- The Attribute's name that a Field's is. -/
def fieldNames : List String :=
  match builtInFields field with
  | some _ => []
  | none => [field]

/-- The state once the head has named the Field. -/
def namedState : CompilerState := { CompilerState.start with tail := true, names := fieldNames field }

/-- The field is compiled in the head. -/
theorem run_name_head (span : Span) : (name ⟨field, span, true⟩ env .any none).run .start =
    .ok (fieldValue field, { CompilerState.start with names := fieldNames field }) := by
  unfold name fieldValue fieldNames
  cases h : builtInFields field with
  | some t =>
    simp [h, Scope.lookup, Scope.logScope, CompilerState.start]
    rfl
  | none =>
    simp [h, Scope.lookup, Scope.logScope, CompilerState.start, named, read, ValueType.attributeType, dynamicParts]
    rfl

/-- The field is compiled in the tail, where it is read. -/
theorem run_name_tail (span : Span) : (name ⟨field, span, true⟩ env .any none).run (namedState field) =
    .ok (fieldValue field, { namedState field with readOrder := fieldReads field }) := by
  unfold name fieldValue namedState fieldNames fieldReads
  cases h : builtInFields field with
  | some t =>
    simp [h, Scope.lookup, Scope.logScope, CompilerState.start]
    rfl
  | none =>
    simp [h, Scope.lookup, Scope.logScope, CompilerState.start, named, read, ValueType.attributeType, dynamicParts]
    rfl

/-- The condition that a Field has a value. -/
def hasValue : Expr := .not (.isEmpty (fieldValue field))

/-- The test that the field has a value is compiled. -/
theorem run_isNotNull : (predicate env (isNotNull field at')).run .start =
    .ok (hasValue field, { CompilerState.start with names := fieldNames field }) := by
  have harg : (callOf (.union [at' 3, at' 4, at' 6]) ⟨"isnotnull", at' 3, false⟩
      (exprs [.ident ⟨field, at' 5, true⟩]) env none).run .start =
        .ok (hasValue field, { CompilerState.start with names := fieldNames field }) := by
    change (emptyTest "isnotnull" (.union [at' 3, at' 4, at' 6]) true
      (exprs [.ident ⟨field, at' 5, true⟩]) env none).run .start = _
    unfold emptyTest
    simp only [exprs, expr]
    rw [run_bind_of_ok (run_name_head env field (at' 5))]
    rfl
  have hcall : (expr (isNotNull field at') env .any none).run .start =
      .ok (hasValue field, { CompilerState.start with names := fieldNames field }) := by
    unfold isNotNull expr call
    rw [run_bind_of_ok harg]
    rfl
  have hpredicate : predicate env (isNotNull field at') =
      condition (expr (isNotNull field at')) (isNotNull field at').span env := rfl
  rw [hpredicate]
  unfold condition
  rw [run_bind_of_ok hcall]
  rfl

/-- The head is that test. -/
theorem run_head : (headStages env [.whereStage (at' 1) (at' 2) (isNotNull field at')]).run .start =
    .ok ([.whereStage (hasValue field)], { CompilerState.start with names := fieldNames field }) := by
  have hstage : (stage env [] (.whereStage (at' 1) (at' 2) (isNotNull field at'))).run .start =
      .ok (.whereStage (hasValue field), { CompilerState.start with names := fieldNames field }) := by
    unfold stage
    rw [run_bind_of_ok (run_isNotNull env field at')]
    rfl
  unfold headStages
  rw [run_bind_of_ok hstage]
  rfl

/-- The column of the values, and that of their counts. -/
def valueColumn : NamedValue := ⟨fieldColumn field, fieldValue field, at' 13⟩

def countColumn : NamedValue :=
  ⟨"count_", .aggregate .count none 0 .number, .union [at' 9, at' 10, at' 11]⟩

/-- The state once the values are counted. -/
def countedState : CompilerState :=
  { namedState field with
    scope := ⟨false, columnsOf [valueColumn field at', countColumn at']⟩, readOrder := fieldReads field }

/-- The field's value has the field's name. -/
theorem fieldName_fieldValue : fieldName (fieldValue field) = field := by
  unfold fieldValue
  cases builtInFields field <;> rfl

/-- The column of values is compiled. -/
theorem run_valueColumn : (columns env [⟨none, .ident ⟨field, at' 13, true⟩⟩] none).run (namedState field) =
    .ok ([valueColumn field at'], { namedState field with readOrder := fieldReads field }) := by
  have hnamed : (namedColumns env none 1 [⟨none, .ident ⟨field, at' 13, true⟩⟩]).run (namedState field) =
      .ok ([valueColumn field at'], { namedState field with readOrder := fieldReads field }) := by
    have hx : (expr (.ident ⟨field, at' 13, true⟩) env .any none).run (namedState field) =
        .ok (fieldValue field, { namedState field with readOrder := fieldReads field }) :=
      run_name_tail env field (at' 13)
    unfold namedColumns
    rw [run_bind_of_ok hx]
    simp only [Option.isSome_none, Bool.false_eq_true, if_false, fieldName_fieldValue]
    rfl
  unfold columns
  rw [run_bind_of_ok hnamed]
  rfl

/-- The column of counts is compiled. -/
theorem run_countColumn (basis : RateBasis) (s : CompilerState) :
    (columns env [⟨none, .call ⟨"count", at' 9, false⟩ (at' 10) [] (at' 11)⟩] (some basis)).run s =
      .ok ([countColumn at'], s) := by
  rfl

/-- The stage that counts the values, its tokens at some places. -/
def countStage : Syntax.Stage :=
  .summarizeStage (at' 7) (at' 8) [⟨none, .call ⟨"count", at' 9, false⟩ (at' 10) [] (at' 11)⟩]
    [⟨none, .ident ⟨field, at' 13, true⟩⟩]

/-- The two columns have different names, but for one field. -/
theorem run_uniqueNames (h : fieldColumn field ≠ "count_") (s : CompilerState) :
    (uniqueNames env [] [valueColumn field at', countColumn at']).run s = .ok ((), s) := by
  simp [uniqueNames, valueColumn, countColumn, Ne.symm h]
  rfl

/-- A column of the counts' own name is refused. -/
theorem run_uniqueNames_error (h : fieldColumn field = "count_") (s : CompilerState) :
    ∃ e, (uniqueNames env [] [valueColumn field at', countColumn at']).run s = .error e := by
  simp only [uniqueNames, valueColumn, countColumn, h, List.contains_nil, Bool.false_eq_true, if_false,
    List.nil_append, List.contains_cons, BEq.rfl, Bool.true_or, if_true]
  exact ⟨_, rfl⟩

/-- Counting the values comes to that check. -/
theorem run_countStage : (stage env [] (countStage field at')).run (namedState field) =
    (do
      uniqueNames env [] [valueColumn field at', countColumn at']
      setScope ⟨false, columnsOf [valueColumn field at', countColumn at']⟩
      return Stage.summarizeStage [valueColumn field at'] [countColumn at']).run
        { namedState field with readOrder := fieldReads field } := by
  have hget : (get : Compiler CompilerState).run { namedState field with readOrder := fieldReads field } =
      .ok ({ namedState field with readOrder := fieldReads field },
        { namedState field with readOrder := fieldReads field }) := rfl
  unfold countStage stage
  simp only
  rw [run_bind_of_ok (run_valueColumn env field at'), run_bind_of_ok hget]
  simp only
  rw [run_bind_of_ok (run_countColumn env at' _ _)]
  rfl

/-- The order of the values, the most Logs first. -/
def countKey : SortKey := ⟨.columnRef "count_" .number false, false, false⟩

/-- The order by counts is compiled. -/
theorem run_sortStage (h : fieldColumn field ≠ "count_") (before : List Stage) :
    (stage env before (.sortStage (at' 14) (.union [at' 15, at' 16])
      [⟨.ident ⟨"count_", at' 17, false⟩, false, none, at' 18⟩])).run (countedState field at') =
        .ok (.sortStage [countKey], countedState field at') := by
  have hlookup : (countedState field at').scope.lookup "count_" = some ⟨"count_", .number, false⟩ := by
    simp [countedState, Scope.lookup, columnsOf, valueColumn, countColumn, h, Expr.typ, Expr.isMessage]
  have hget : (get : Compiler CompilerState).run (countedState field at') =
      .ok (countedState field at', countedState field at') := rfl
  have hname : (name ⟨"count_", at' 17, false⟩ env .any none).run (countedState field at') =
      .ok (.columnRef "count_" .number false, countedState field at') := by
    have halias : fieldAliases "count_" = none := rfl
    unfold name
    simp only [Bool.false_eq_true, if_false, halias, Option.getD_none]
    rw [run_bind_of_ok hget]
    simp only [hlookup]
    rfl
  have hkey : (sortKey env ⟨.ident ⟨"count_", at' 17, false⟩, false, none, at' 18⟩).run (countedState field at') =
      .ok (countKey, countedState field at') := by
    unfold sortKey expr
    rw [run_bind_of_ok hname]
    rfl
  have hkeys : ([⟨.ident ⟨"count_", at' 17, false⟩, false, none, at' 18⟩].mapM (sortKey env)).run
      (countedState field at') = .ok ([countKey], countedState field at') := by
    rw [List.mapM_cons, run_bind_of_ok hkey]
    rfl
  unfold stage
  simp only
  rw [run_bind_of_ok hkeys]
  rfl

/-- The stages of the table. -/
def valueStages : List Stage :=
  [.summarizeStage [valueColumn field at'] [countColumn at'], .sortStage [countKey], .takeStage 100]

/-- The tail summarizes, sorts and takes. -/
theorem run_tail (h : fieldColumn field ≠ "count_") :
    (tailStages env [] (countStages field at')).run (namedState field) =
      .ok (valueStages field at', countedState field at') := by
  have hsummarize : (stage env [] (countStage field at')).run (namedState field) =
      .ok (.summarizeStage [valueColumn field at'] [countColumn at'], countedState field at') := by
    rw [run_countStage, run_bind_of_ok (run_uniqueNames env field at' h _)]
    rfl
  have htake : ∀ before, (stage env before (.takeStage (at' 19) (at' 20) ⟨at' 21, .number, "100"⟩)).run
      (countedState field at') = .ok (.takeStage 100, countedState field at') := by
    intro before
    have hcount : "100".toNat? = some 100 := Nat.toNat?_repr 100
    simp [stage, rowCount, hcount]
    rfl
  have hstages : countStages field at' = [countStage field at', .sortStage (at' 14) (.union [at' 15, at' 16])
      [⟨.ident ⟨"count_", at' 17, false⟩, false, none, at' 18⟩],
      .takeStage (at' 19) (at' 20) ⟨at' 21, .number, "100"⟩] := rfl
  rw [hstages, tailStages, run_bind_of_ok hsummarize, tailStages,
    run_bind_of_ok (run_sortStage env field at' h _), tailStages, run_bind_of_ok (htake _)]
  rfl

/-- What the Query compiles to, from what the head narrows the range to. -/
def fieldValuesCompiled (range : ℤ × ℤ) : Query where
  head := [.whereStage (hasValue field)]
  tail := valueStages field at'
  fromTime := range.1
  toTime := range.2
  parameters := []
  table := true
  take := some 100
  reads := fieldReads field
  output := [⟨fieldColumn field, .columnRef (fieldColumn field) (fieldValue field).typ false, .null⟩,
    ⟨"count_", .columnRef "count_" .number false, .null⟩]
  shape := shapeOf (valueStages field at')
    [⟨fieldColumn field, .columnRef (fieldColumn field) (fieldValue field).typ false, .null⟩,
      ⟨"count_", .columnRef "count_" .number false, .null⟩]

/-- The Query of a field's values compiles, but for one field. -/
theorem compileQuery_fieldValues (h : fieldColumn field ≠ "count_") : ∃ range,
    compileQuery env (fieldValuesTree slug field at') = .ok (fieldValuesCompiled field at' range) := by
  obtain ⟨range, hrange⟩ : ∃ range, range =
      narrow [.whereStage (hasValue field)] (env.bounds.fromTime, env.bounds.toTime) := ⟨_, rfl⟩
  refine ⟨range, ?_⟩
  refine run'_of_run (s := .start) (t := countedState field at') ?_
  have hhead : (fieldValuesTree slug field at').stages.takeWhile isHead =
      [.whereStage (at' 1) (at' 2) (isNotNull field at')] := rfl
  have htail : (fieldValuesTree slug field at').stages.dropWhile isHead = countStages field at' := rfl
  have hset : (modify fun s => { s with tail := true } : Compiler Unit).run
      { CompilerState.start with names := fieldNames field } = .ok ((), namedState field) := rfl
  have hget : (get : Compiler CompilerState).run (countedState field at') =
      .ok (countedState field at', countedState field at') := rfl
  have houtput : output.run (countedState field at') =
      .ok ((fieldValuesCompiled field at' range).output, countedState field at') := rfl
  unfold compileTree
  rw [hhead, htail, run_bind_of_ok (run_head env field at')]
  simp only
  rw [← hrange, run_bind_of_ok hset, run_bind_of_ok (run_tail _ field at' h)]
  have htable : (valueStages field at').any makesTable = true := rfl
  simp only [htable, if_true]
  rw [run_bind_of_ok houtput, run_bind_of_ok hget]
  rfl

/-- A Field of the counts' own name has no table. -/
theorem compileQuery_fieldValues_ne (h : fieldColumn field = "count_") (q : Query) :
    compileQuery env (fieldValuesTree slug field at') ≠ .ok q := by
  intro hq
  obtain ⟨t, ht⟩ := exists_of_run' hq
  have hhead : (fieldValuesTree slug field at').stages.takeWhile isHead =
      [.whereStage (at' 1) (at' 2) (isNotNull field at')] := rfl
  have htail : (fieldValuesTree slug field at').stages.dropWhile isHead = countStages field at' := rfl
  have hset : (modify fun s => { s with tail := true } : Compiler Unit).run
      { CompilerState.start with names := fieldNames field } = .ok ((), namedState field) := rfl
  change (compileTree env (fieldValuesTree slug field at')).run .start = _ at ht
  unfold compileTree at ht
  rw [hhead, htail, run_bind_of_ok (run_head env field at')] at ht
  simp only at ht
  rw [run_bind_of_ok hset] at ht
  obtain ⟨_, _, hstages, -⟩ := exists_of_run_bind ht
  have hcons : countStages field at' = countStage field at' :: (countStages field at').tail := rfl
  rw [hcons, tailStages] at hstages
  obtain ⟨_, _, hcount, -⟩ := exists_of_run_bind hstages
  rw [run_countStage] at hcount
  obtain ⟨_, _, hunique, -⟩ := exists_of_run_bind hcount
  obtain ⟨e, he⟩ := run_uniqueNames_error _ field at' h _
  rw [he] at hunique
  cases hunique

end Compiling

end SolidTrace.LogQuery
