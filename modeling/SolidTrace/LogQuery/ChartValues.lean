import SolidTrace.LogQuery.FieldValuesListed

/-!
# The values that a select lists

Console asks for a Field's values as a table and lists the table's rows by their texts.
-/

namespace SolidTrace.LogQuery

open Tally

section Texts

/-- The list that Console makes of a table of values and their counts: each value as its text, a String as it is
and any other as its JSON, with the most Logs first. -/
def ChartRuns.fieldValues (text : Value → String) (rows : List (Value × ℕ)) : List (String × ℕ) :=
  let counts := tally (rows.map fun row => (text row.1, row.2))
  (counts.zipIdx.mergeSort fun a b => decide (b.1.2 < a.1.2) || (decide (a.1.2 = b.1.2) && decide (a.2 ≤ b.2))).map
    Prod.fst

variable (text : Value → String) (rows : List (Value × ℕ))

/-- The values are the tally of the rows' texts. -/
theorem fieldValues_perm :
    (ChartRuns.fieldValues text rows).Perm (tally (rows.map fun row => (text row.1, row.2))) := by
  have hperm := (List.mergeSort_perm (tally (rows.map fun row => (text row.1, row.2))).zipIdx fun a b =>
    decide (b.1.2 < a.1.2) || (decide (a.1.2 = b.1.2) && decide (a.2 ≤ b.2))).map Prod.fst
  rwa [List.zipIdx_map_fst] at hperm

/-- Console lists each text once, with the counts of the values of that text. -/
theorem fieldValues_tallies :
    Tallies (rows.map fun row => (text row.1, row.2)) (ChartRuns.fieldValues text rows) :=
  (tallies_tally _).of_perm (fieldValues_perm text rows)

/-- The commonest values come first. -/
theorem fieldValues_descending : (ChartRuns.fieldValues text rows).Pairwise fun a b => b.2 ≤ a.2 := by
  rw [ChartRuns.fieldValues, List.pairwise_map]
  refine (List.pairwise_mergeSort (fun a b c hab hbc => ?_) (fun a b => ?_) _).imp fun {a b} h => ?_
  · simp only [Bool.or_eq_true, Bool.and_eq_true, decide_eq_true_eq] at hab hbc ⊢
    omega
  · simp only [Bool.or_eq_true, Bool.and_eq_true, decide_eq_true_eq]
    omega
  · simp only [Bool.or_eq_true, Bool.and_eq_true, decide_eq_true_eq] at h
    omega

end Texts

section Tables

/-- The rows that a Query's table may have of some Logs. -/
def Query.Tables (ch : ClickHouse) (lib : Library) (limit : ℕ) (q : Query) (logs result : List Sql.Row) : Prop :=
  ∃ matched, (q.matched lib).Gives ch logs matched ∧ (q.tableSQL lib limit).Gives ch matched result

variable {ch : ClickHouse} {lib : Library} {field : String} {at' : ℕ → Span} {range : ℤ × ℤ} {limit : ℕ}
  {logs result : List Sql.Row}

/-- Some table is an answer to the Query of a field's values. -/
theorem exists_tables (logs : List Sql.Row) :
    ∃ result, (fieldValuesCompiled field at' range).Tables ch lib limit logs result := by
  obtain ⟨matched, hmatched⟩ :=
    Select.exists_gives ch ((fieldValuesCompiled field at' range).matched lib) rfl rfl logs
  obtain ⟨countedRows, hcounted⟩ := Select.exists_gives ch (countSelect lib field at') rfl rfl matched
  obtain ⟨sortedRows, hsorted⟩ := Select.exists_gives ch (sortSelect lib) rfl rfl countedRows
  obtain ⟨last, htaken⟩ := Select.exists_gives ch takeSelect rfl rfl sortedRows
  obtain ⟨result, hresult⟩ := Select.exists_gives ch (tableSelect field limit) rfl rfl last
  refine ⟨result, matched, hmatched, ?_⟩
  rw [tableSQL_fieldValues]
  exact ⟨last, ⟨_, hcounted, _, hsorted, _, htaken, rfl⟩, hresult⟩

/-- The table has numbers in the column of the order. -/
theorem number_of_orderColumn (horder : fieldColumn field = orderColumn)
    (h : (fieldValuesCompiled field at' range).Tables ch lib limit logs result) :
    ∀ row ∈ result, ∃ r : ℚ, row orderColumn = some (.number r) := by
  obtain ⟨matched, -, h⟩ := h
  obtain ⟨_, arranged, -, -, -, rfl⟩ := ranked_table h
  intro row hrow
  obtain ⟨numbered, hnumbered, rfl⟩ := List.mem_map.1 hrow
  obtain ⟨i, hi, rfl⟩ := List.getElem_of_mem hnumbered
  have hcount : orderColumn ≠ "count_" := by decide
  refine ⟨i + 1, Eq.trans ?_ (getElem_ranked orderColumn _ hi)⟩
  simp [rowOf_tableSelect, horder, hcount]

end Tables

section Claim

/-- That a select can list a Field's values: the Query of them makes a table of two columns, its rows are the
commonest values of the Field with how many Logs have each, and Console lists their texts. -/
def ListsValues (abc : Alphabet) (env : Env) (slug field : String) : Prop :=
  ∃ tree q, parse abc (ChartRuns.fieldValuesQuery slug field) = .ok tree ∧ compileQuery env tree = .ok q ∧
    q.table = true ∧ q.output.length = 2 ∧
    ∀ ch limit logs, (∀ log ∈ logs, IsLog ch log) →
      (∃ result, q.Tables ch env.lib limit logs result) ∧
      ∀ result, q.Tables ch env.lib limit logs result → ∃ listed : List (Value × ℕ),
        (result.map fun row => q.output.map fun column => row column.name) =
          listed.map (fun p => [some p.1, some (.number p.2)]) ∧
        Commonest (min limit 100) (valuesIn ch field logs) listed ∧
        ∀ text, Tallies (listed.map fun p => (text p.1, p.2)) (ChartRuns.fieldValues text listed) ∧
          (ChartRuns.fieldValues text listed).Pairwise fun a b => b.2 ≤ a.2

variable {abc : Alphabet} {env : Env} {slug field : String}

/-- The column of a field has the field's name, but where that is taken or empty. -/
theorem fieldColumn_ne {name : String} (hname : name ≠ "Column1") (hempty : name ≠ "") :
    fieldColumn field ≠ name ↔ field ≠ name := by
  unfold fieldColumn
  by_cases h : field = ""
  · simp [h, Ne.symm hname, Ne.symm hempty]
  · simp [h]

/-- A Field whose column is no other of the Query's is listed. -/
theorem listsValues_of_ne (hname : fieldColumn field ≠ "count_") (horder : fieldColumn field ≠ orderColumn) :
    ListsValues abc env slug field := by
  obtain ⟨at', hparse⟩ := parse_fieldValuesQuery abc slug field
  obtain ⟨range, hcompile⟩ := compileQuery_fieldValues env slug field at' hname
  refine ⟨_, _, hparse, hcompile, rfl, rfl, fun ch limit logs hlogs => ⟨exists_tables logs, ?_⟩⟩
  rintro result ⟨matched, hmatched, htable⟩
  obtain ⟨listed, hcommonest, hresult⟩ := commonest_table hlogs hname horder hmatched htable
  refine ⟨listed, ?_, hcommonest, fun text => ⟨fieldValues_tallies text listed, fieldValues_descending text listed⟩⟩
  have hrows : ∀ row : Sql.Row, ((fieldValuesCompiled field at' range).output.map fun column => row column.name) =
      [(cells field row).1, (cells field row).2] := fun _ => rfl
  have hpairs := congrArg (List.map fun p : Option Value × Option Value => [p.1, p.2]) hresult
  rw [List.map_map, List.map_map] at hpairs
  simp only [hrows]
  exact hpairs

/-- The Field's Query compiles to nothing else. -/
theorem ListsValues.compiles (h : ListsValues abc env slug field) : fieldColumn field ≠ "count_" := by
  obtain ⟨tree, q, hparse, hcompile, -⟩ := h
  obtain ⟨at', hparse'⟩ := parse_fieldValuesQuery abc slug field
  obtain rfl : fieldValuesTree slug field at' = tree := Except.ok.inj (hparse'.symm.trans hparse)
  intro hcount
  exact compileQuery_fieldValues_ne env slug field at' hcount q hcompile

/-- A Log with a string for an Attribute, and nothing else. -/
def orderedLog (key : String) : Sql.Row
  | "attributes" => some (.attributes [(key, .string "a")])
  | "attrs_json" => some (.map [])
  | "file" => some (.string "")
  | _ => none

/-- Without functions of its own. -/
private def plainClickHouse : ClickHouse := ⟨fun _ _ => none, fun _ _ => none⟩

/-- The sample Log has the attributes of a Log. -/
private theorem orderedLog_isLog : IsLog plainClickHouse (orderedLog orderColumn) where
  attributes := ⟨_, rfl⟩
  json := ⟨_, rfl⟩
  columns name column h := by
    simp only [clickHouseColumns] at h
    split at h
    next hfile =>
      obtain rfl : name = "file" := eq_of_beq hfile
      cases h
      have hother : ("file" == orderColumn) = false := by decide
      simp [clickHouseColumns, Sql.eval, Sql.evalAll, orderedLog, Fn.eval, Sql.text, subcolumnOf, List.lookup, hother]
    next => cases h

/-- The sample Log has the one value. -/
private theorem valuesIn_orderedLog :
    valuesIn plainClickHouse orderColumn [orderedLog orderColumn] = [.dynamic (some "a") none none none] := by
  have hfield : builtInFields orderColumn = none := by decide
  have hvalue : fieldOf plainClickHouse orderColumn (orderedLog orderColumn) =
      some (.dynamic (some "a") none none none) := by
    unfold fieldOf
    rw [hfield]
    simp [dynamicParts, clickHouseColumns, jsonAttribute, Sql.eval, Sql.evalAll, Sql.text, orderedLog, Fn.eval,
      subcolumnOf, orderColumn, truth, tupleOf]
  have htype : (fieldValue orderColumn).typ = .dynamic := by rw [typ_fieldValue, hfield]; rfl
  rw [valuesIn, List.filterMap_cons, hvalue, htype]
  rfl

/-- Values that are replaced by the numbers of the rows are not listed. -/
theorem ListsValues.ne_orderColumn (h : ListsValues abc env slug field) : field ≠ orderColumn := by
  rintro rfl
  have hname : fieldColumn orderColumn ≠ "count_" := by decide
  have horder : fieldColumn orderColumn = orderColumn := by decide
  obtain ⟨tree, q, hparse, hcompile, -, -, hlists⟩ := h
  obtain ⟨at', hparse'⟩ := parse_fieldValuesQuery abc slug orderColumn
  obtain rfl : fieldValuesTree slug orderColumn at' = tree := Except.ok.inj (hparse'.symm.trans hparse)
  obtain ⟨range, hcompile'⟩ := compileQuery_fieldValues env slug orderColumn at' hname
  obtain rfl : fieldValuesCompiled orderColumn at' range = q := Except.ok.inj (hcompile'.symm.trans hcompile)
  obtain ⟨⟨result, htable⟩, hlisted⟩ := hlists plainClickHouse 1 [orderedLog orderColumn]
    (by simpa using orderedLog_isLog)
  obtain ⟨listed, hresult, hcommonest, -⟩ := hlisted result htable
  have hlength := hcommonest.length
  rw [valuesIn_orderedLog] at hlength
  obtain ⟨p, rfl⟩ : ∃ p, listed = [p] := List.length_eq_one_iff.1 hlength
  obtain ⟨row, rfl⟩ : ∃ row, result = [row] := List.length_eq_one_iff.1 (by simpa using congrArg List.length hresult)
  obtain ⟨r, hr⟩ := number_of_orderColumn horder htable row List.mem_cons_self
  have hcell : row orderColumn = some p.1 := by
    have hcells : [[row (fieldColumn orderColumn), row "count_"]] = [[some p.1, some (.number p.2)]] := hresult
    rw [horder] at hcells
    simp only [List.cons.injEq, and_true] at hcells
    exact hcells.1
  have hmem := (hcommonest.counts p List.mem_cons_self).1
  rw [valuesIn_orderedLog, List.mem_singleton] at hmem
  rw [hr, hmem] at hcell
  cases hcell

/-- A select can list the values of every Field but one of the counts' name or that of the order. -/
theorem listsValues_iff (abc : Alphabet) (env : Env) (slug field : String) :
    ListsValues abc env slug field ↔ field ≠ "count_" ∧ field ≠ orderColumn := by
  have hcount : fieldColumn field ≠ "count_" ↔ field ≠ "count_" := fieldColumn_ne (by decide) (by decide)
  have horder : fieldColumn field ≠ orderColumn ↔ field ≠ orderColumn := fieldColumn_ne (by decide) (by decide)
  constructor
  · intro h
    exact ⟨hcount.1 h.compiles, h.ne_orderColumn⟩
  · rintro ⟨hne, hne'⟩
    exact listsValues_of_ne (hcount.2 hne) (horder.2 hne')

/-- The values of the Field `count_` are not listed. -/
theorem not_listsValues_count : ¬ListsValues Sample.alphabet Sample.env "api" "count_" := by
  intro h
  exact h.compiles (by decide)

end Claim

end SolidTrace.LogQuery
