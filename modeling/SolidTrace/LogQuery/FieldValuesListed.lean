import SolidTrace.Lib.Commonest
import SolidTrace.LogQuery.FieldValuesTable
import SolidTrace.LogQuery.RankedRows

/-!
# The listed values of a Field

The rows of the table of a Field's values, and the list that Console makes of them.
-/

namespace SolidTrace.LogQuery

open Tally

section Values

variable (ch : ClickHouse) (field : String)

/-- The value of a Field of a Log: a built-in field, or the parts of an Attribute. -/
def fieldOf (log : Sql.Row) : Option Value :=
  if (builtInFields field).isSome then log field
  else tupleOf (dynamicParts.map fun t => ((clickHouseColumns none).attributeOf t field).eval ch [] log)

/-- Whether a Field of a type has a value: not an empty string. -/
def isPresent : ValueType → Value → Bool
  | .string, v => v ≠ .string ""
  | .dynamic, .dynamic s n b j => s.any (· ≠ "") || n.isSome || b.isSome || j.isSome
  | _, _ => true

/-- The values of a Field of some Logs. -/
def valuesIn (logs : List Sql.Row) : List Value :=
  logs.filterMap fun log => (fieldOf ch field log).filter (isPresent (fieldValue field).typ)

end Values

section Matched

variable {ch : ClickHouse} {lib : Library} {field : String} {log : Sql.Row}

/-- The field's value has the field's type. -/
theorem typ_fieldValue (field : String) : (fieldValue field).typ = ((builtInFields field).getD .dynamic) := by
  unfold fieldValue
  cases builtInFields field <;> rfl

/-- A built-in field is a time or a text. -/
theorem builtInFields_cases {t : ValueType} (h : builtInFields field = some t) : t = .time ∨ t = .string := by
  unfold builtInFields at h
  split at h <;> cases h <;> simp

/-- A Field of a Log is missing, or an empty string, just when it has no value. -/
theorem isEmptyVerdict_fieldValue (hlog : IsLog ch log) {r : Reading}
    (hreads : Reads ch [] log (write lib (clickHouseColumns none).toFields (fieldValue field)) r) :
    isEmptyVerdict (fieldValue field).typ r =
      !((fieldOf ch field log).filter (isPresent (fieldValue field).typ)).isSome := by
  rw [typ_fieldValue]
  unfold fieldValue at hreads
  cases hfield : builtInFields field with
  | some t =>
    have hvalue : r.value = log field := by
      rw [hfield] at hreads
      exact hreads.value.symm
    have hof : fieldOf ch field log = log field := by simp [fieldOf, hfield]
    rw [hof]
    rcases builtInFields_cases hfield with rfl | rfl
    · cases hlog : log field <;> simp [isEmptyVerdict, hvalue, hlog, isPresent]
    · cases hlog : log field with
      | none => simp [isEmptyVerdict, missingText, hvalue, hlog]
      | some v => by_cases hv : v = .string "" <;> simp [isEmptyVerdict, missingText, hvalue, hlog, isPresent, hv]
  | none =>
    obtain ⟨s, n, b, j, hparts⟩ := eval_attributeOf hlog field
    have hpart : ∀ t, r.part t = elementOf t (.dynamic s n b j) := by
      intro t
      rw [hfield] at hreads
      exact (hreads.part t).symm.trans (hparts t)
    have hof : fieldOf ch field log = some (.dynamic s n b j) := by
      simp only [fieldOf, hfield, Option.isSome_none, Bool.false_eq_true, if_false]
      exact tupleOf_elements hparts
    rw [hof]
    have htext : missingText (s.map Value.string) = !s.any (· ≠ "") := by
      cases s with
      | none => rfl
      | some s => by_cases hs : s = "" <;> simp [missingText, hs]
    simp only [Option.getD_none, isEmptyVerdict, dynamicParts, List.tail_cons, List.all_cons, List.all_nil,
      Bool.and_true, hpart, elementOf, htext, Option.isSome_filter, Option.any_some, isPresent, Bool.not_or,
      Option.isNone_map, Option.not_isSome, Bool.and_assoc]

/-- A Log passes the head just when the Field has a value. -/
theorem holds_hasValue_iff (hlog : IsLog ch log) :
    (writeCondition lib (clickHouseColumns none).toFields (hasValue field) false).holds ch [] log ↔
      ((fieldOf ch field log).filter (isPresent (fieldValue field).typ)).isSome := by
  let w := write lib (clickHouseColumns none).toFields (fieldValue field)
  have hreads : Reads ch [] log w ⟨w.value.eval ch [] log, fun t => (w.partsOf t).eval ch [] log,
      w.jsonText.eval ch [] log, none⟩ := ⟨rfl, fun _ => rfl, rfl⟩
  have hcondition : writeCondition lib (clickHouseColumns none).toFields (hasValue field) false =
      .fn .not [writeIsEmpty (fieldValue field).typ w] := rfl
  rw [hcondition, Sql.holds]
  have htruth : ∀ b, truth (some (.bool b)) = some b := fun _ => rfl
  simp only [Sql.eval, Sql.evalAll, Fn.eval, eval_writeIsEmpty hreads, isEmptyVerdict_fieldValue hlog hreads,
    truth_ofTruth, htruth, Kleene.not_eq_true, Option.some.injEq, Bool.not_eq_false']

variable {at' : ℕ → Span} {range : ℤ × ℤ} {logs matched : List Sql.Row}

/-- The value that the rows of the tail are grouped by. -/
def keyOf (ch : ClickHouse) (lib : Library) (field : String) (row : Sql.Row) : Option Value :=
  (writeValue lib (tailFields sourceRelation) (fieldValue field)).eval ch [] row

/-- The tail reads the Field's value of a Log. -/
theorem keyOf_readRow (log : Sql.Row) :
    keyOf ch lib field (readRow ch (fieldValuesCompiled field at' range) log) = fieldOf ch field log := by
  unfold keyOf fieldOf fieldValue
  cases hfield : builtInFields field with
  | some t =>
    simp only [Option.isSome_some, if_true]
    exact readRow_builtIn (by rw [hfield]; rfl)
  | none =>
    have hreads : ∀ t ∈ dynamicParts, ⟨t, field⟩ ∈ (fieldValuesCompiled field at' range).reads := by
      intro t ht
      simp only [fieldValuesCompiled, fieldReads, hfield]
      exact List.mem_map_of_mem ht
    simp only [Option.isSome_none, Bool.false_eq_true, if_false]
    change (dynamicOf ((tailFields sourceRelation).attributeOf · field)).eval ch [] _ = _
    rw [eval_dynamicOf]
    exact congrArg tupleOf (List.map_congr_left fun t ht => readRow_attribute (hreads t ht))

/-- The rows that the tail reads are those of the Logs in which the Field has a value. -/
theorem map_keyOf_matched (hlogs : ∀ log ∈ logs, IsLog ch log)
    (h : ((fieldValuesCompiled field at' range).matched lib).Gives ch logs matched) :
    (matched.map (keyOf ch lib field)).Perm ((valuesIn ch field logs).map some) := by
  let q := fieldValuesCompiled field at' range
  have hvalues : (q.matched lib).OnlyValues := by
    intro item hitem
    simp only [Query.matched, Select.list, Query.select, List.mem_append, List.mem_cons, List.mem_map] at hitem
    rcases hitem with (rfl | ⟨_, -, rfl⟩) | ⟨_, -, rfl⟩ <;> exact ⟨_, rfl⟩
  have hpasses : ∀ log ∈ logs, (q.matched lib).passes ch log =
      ((fieldOf ch field log).filter (isPresent (fieldValue field).typ)).isSome := by
    intro log hlog
    have hiff := @holds_hasValue_iff ch lib field log (hlogs log hlog)
    have hfilter : (q.matched lib).filter =
        some (writeCondition lib (clickHouseColumns none).toFields (hasValue field) false) := rfl
    rw [Bool.eq_iff_iff, ← hiff, Select.passes, hfilter]
    simp [Sql.holds]
  have hperm := (hvalues.gives_perm rfl rfl rfl h).map (keyOf ch lib field)
  rw [List.map_map, List.filter_congr hpasses] at hperm
  have hkeys : (logs.filter fun log => ((fieldOf ch field log).filter (isPresent (fieldValue field).typ)).isSome).map
      (keyOf ch lib field ∘ (q.matched lib).rowOf ch [] [] 0) = (valuesIn ch field logs).map some := by
    unfold valuesIn
    rw [List.map_filterMap_some_eq_filter_map_isSome, List.filter_map]
    refine List.map_congr_left fun log hlog => ?_
    have hsome := List.of_mem_filter hlog
    have hrow : (q.matched lib).rowOf ch [] [] 0 log = readRow ch q log := (hvalues.rowOf_eq [log] [] 0 log).symm
    rw [Function.comp_apply, hrow, keyOf_readRow]
    cases hv : fieldOf ch field log with
    | none => rfl
    | some v =>
      have hpresent : isPresent (fieldValue field).typ v = true := by simpa [hv] using hsome
      exact (Option.filter_some_pos hpresent).symm
  rwa [hkeys] at hperm

end Matched

section Table

variable {ch : ClickHouse} {lib : Library} {field : String} {at' : ℕ → Span} {range : ℤ × ℤ} {limit : ℕ}
  {matched result : List Sql.Row}

/-- The statement of the stage that counts the values. -/
def countSelect (lib : Library) (field : String) (at' : ℕ → Span) : Select :=
  { Select.list (selectList lib [valueColumn field at', countColumn at'] (tailFields sourceRelation))
      sourceRelation with
    group := some 1 }

/-- The statement that numbers the values, the most Logs first. -/
def sortSelect (lib : Library) : Select :=
  { Select.all "stage1" with
    items := [(.rowNumber (orderBy lib [countKey] (tailFields "stage1")), orderColumn)] }

def takeSelect : Select :=
  { Select.all "stage2" with order := .terms (byNumber (some "stage2") orderColumn), limit := some 100 }

def tableSelect (field : String) (limit : ℕ) : Select :=
  { Select.list [(.value (.column (some "stage3") (fieldColumn field)), fieldColumn field),
      (.value (.column (some "stage3") "count_"), "count_")] "stage3" with
    order := .terms (byNumber (some "stage3") orderColumn), limit := some limit }

/-- The SQL of the table is three stages and what is shown of them. -/
theorem tableSQL_fieldValues : (fieldValuesCompiled field at' range).tableSQL lib limit =
    ⟨[⟨"stage1", none, countSelect lib field at'⟩, ⟨"stage2", none, sortSelect lib⟩, ⟨"stage3", none, takeSelect⟩],
      tableSelect field limit⟩ := by
  have hrates : ∀ q before f, rateColumns lib q before [valueColumn field at'] [countColumn at'] f = [] := by
    intro q before f
    simp [rateColumns, usesAggregate, countColumn, hasAggregate]
  have hcount : ∀ q before, writeStage lib tailFields q before (.logs sourceRelation)
      (.summarizeStage [valueColumn field at'] [countColumn at']) =
        ⟨[⟨"stage1", none, countSelect lib field at'⟩], "stage1", false, false, [fieldColumn field, "count_"]⟩ := by
    intro q before
    unfold writeStage
    simp only [hrates, List.isEmpty_nil, if_true]
    rfl
  have htwo : ∀ a : Cte, "stage" ++ toString ([a].length + 1) = "stage2" := by
    intro a
    rw [List.length_singleton]
    rfl
  have hthree : ∀ a b : Cte, "stage" ++ toString ([a, b].length + 1) = "stage3" := by
    intro a b
    rw [List.length_cons, List.length_singleton]
    rfl
  have hsort : ∀ q before a has, writeStage lib tailFields q before ⟨[a], "stage1", false, false, has⟩
      (.sortStage [countKey]) = ⟨[a, ⟨"stage2", none, sortSelect lib⟩], "stage2", true, false, has⟩ := by
    intro q before a has
    simp only [writeStage, Chain.add, htwo]
    rfl
  have htake : ∀ q before a b has, writeStage lib tailFields q before ⟨[a, b], "stage2", true, false, has⟩
      (.takeStage 100) = ⟨[a, b, ⟨"stage3", none, takeSelect⟩], "stage3", true, false, has⟩ := by
    intro q before a b has
    simp only [writeStage, if_true, Chain.add, hthree]
    rfl
  unfold Query.tableSQL Query.writeTail
  simp only [fieldValuesCompiled, valueStages, writeStages, hcount, hsort, htake]
  rfl

/-- The two cells of a row: a value and its count. -/
def cells (field : String) (row : Sql.Row) : Option Value × Option Value := (row (fieldColumn field), row "count_")

/-- The field's value is the key that the rows are counted under. -/
theorem eval_fieldValue (group : List Sql.Row) (row : Sql.Row) :
    (writeValue lib (tailFields sourceRelation) (fieldValue field)).eval ch group row = keyOf ch lib field row := by
  unfold keyOf fieldValue
  cases builtInFields field with
  | some t => rfl
  | none =>
    change (dynamicOf ((tailFields sourceRelation).attributeOf · field)).eval ch group row =
      (dynamicOf ((tailFields sourceRelation).attributeOf · field)).eval ch [] row
    rw [eval_dynamicOf, eval_dynamicOf]
    rfl

/-- The cells of the counted rows are the values with how often each is among them. -/
theorem cells_counted (hname : fieldColumn field ≠ "count_")
    (h : (countSelect lib field at').Gives ch matched result) : (result.map (cells field)).Perm
      ((counted (matched.map (keyOf ch lib field))).map fun p => (p.1, some (.number p.2))) := by
  let s := countSelect lib field at'
  have hvalues : s.OnlyValues := by
    intro item hitem
    obtain ⟨col, -, rfl⟩ := List.mem_map.1 (show item ∈ selectList lib _ _ from hitem)
    exact ⟨_, rfl⟩
  obtain ⟨arranged, harranged, hresult⟩ := hvalues.gives_groups rfl rfl rfl h
  have hpasses : matched.filter (s.passes ch) = matched := List.filter_eq_self.2 fun _ _ => rfl
  rw [hpasses] at harranged
  have hcells : ∀ group row, cells field (s.rowOf ch [] group 0 row) =
      (keyOf ch lib field row, some (.number group.length)) := by
    intro group row
    have hcount : (writeValue lib (tailFields sourceRelation) (countColumn at').x).eval ch group row =
        some (.number group.length) := by
      change some (Value.number ((group.map fun r => Sql.evalAll ch group r []).length : ℚ)) = _
      rw [List.length_map]
    have hrow : s.rowOf ch [] group 0 row = fun name =>
        if name = "count_" then some (.number group.length)
        else if name = fieldColumn field then keyOf ch lib field row else none := by
      rw [← hcount, ← eval_fieldValue group row]
      rfl
    simp [cells, hrow, hname]
  have hgroups : (s.groups ch 1 arranged).map (fun group =>
      cells field (s.rowOf ch [] group 0 (group.head?.getD noRow))) =
        (counted (arranged.map (keyOf ch lib field))).map fun p => (p.1, some (.number p.2)) := by
    have hkeys : (arranged.map (s.groupKey ch 1)).dedup =
        (arranged.map (keyOf ch lib field)).dedup.map fun v => [v] := by
      rw [← List.dedup_map_of_injective (fun _ _ => List.head_eq_of_cons_eq), List.map_map]
      rfl
    rw [counted_of_items, Select.groups, if_neg Nat.one_ne_zero, hkeys, List.map_map, List.map_map, List.map_map]
    refine List.map_congr_left fun v hv => ?_
    have hgroup : arranged.filter (fun row => s.groupKey ch 1 row = [v]) =
        arranged.filter (fun row => keyOf ch lib field row = v) := by
      refine List.filter_congr fun row _ => ?_
      have hkey : s.groupKey ch 1 row = [keyOf ch lib field row] := rfl
      simp [hkey]
    obtain ⟨row, hrow, hkey⟩ := List.mem_map.1 (List.mem_dedup.1 hv)
    obtain ⟨first, rest, hfirst⟩ : ∃ first rest,
        arranged.filter (fun row => keyOf ch lib field row = v) = first :: rest :=
      List.exists_cons_of_ne_nil (List.ne_nil_of_mem (List.mem_filter.2 ⟨hrow, by simpa using hkey⟩))
    have hhead : keyOf ch lib field first = v := by
      have hmem : first ∈ arranged.filter (fun row => keyOf ch lib field row = v) := hfirst ▸ List.mem_cons_self
      simpa using List.of_mem_filter hmem
    simp only [Function.comp_apply]
    rw [hgroup, hcells, hfirst, List.head?_cons, Option.getD_some, hhead]
  have hperm := hresult.map (cells field)
  rw [List.map_map] at hperm
  refine (hperm.trans (.of_eq hgroups)).trans ?_
  exact (counted_perm (harranged.map _)).map _

/-- The sort numbers its rows by their counts. -/
theorem sortSelect_numbers : (sortSelect lib).Numbers [⟨.column (some "stage1") "count_", false, false⟩] orderColumn :=
  ⟨rfl, rfl, rfl, rfl, rfl, rfl⟩

/-- The take ranks its rows by the sort's numbers. -/
theorem takeSelect_ranks : takeSelect.Ranks (some "stage2") orderColumn := ⟨nofun, rfl, rfl, rfl, rfl⟩

/-- What is shown ranks its rows by the take's numbers. -/
theorem tableSelect_ranks : (tableSelect field limit).Ranks (some "stage3") orderColumn := by
  refine ⟨fun item hitem => ?_, rfl, rfl, rfl, rfl⟩
  have hitems : (tableSelect field limit).items = [(.value (.column (some "stage3") (fieldColumn field)),
      fieldColumn field), (.value (.column (some "stage3") "count_"), "count_")] := rfl
  rw [hitems, List.mem_cons, List.mem_singleton] at hitem
  rcases hitem with rfl | rfl <;> exact ⟨_, rfl⟩

/-- The take leaves its rows as they are. -/
theorem rowOf_takeSelect : takeSelect.rowOf ch [] [] 0 = id := by
  funext row name
  rfl

/-- What is shown of a row is its value and its count. -/
theorem rowOf_tableSelect (row : Sql.Row) : (tableSelect field limit).rowOf ch [] [] 0 row = fun name =>
    if name = "count_" then row "count_" else if name = fieldColumn field then row (fieldColumn field) else none :=
  rfl

/-- The table's rows are the first of the counted rows by their counts, as they are numbered. -/
theorem ranked_table (h : ((fieldValuesCompiled field at' range).tableSQL lib limit).Gives ch matched result) :
    ∃ countedRows arranged : List Sql.Row, (countSelect lib field at').Gives ch matched countedRows ∧ arranged.Perm countedRows ∧
      arranged.Pairwise
        (fun a b => mayPrecede ch [⟨.column (some "stage1") "count_", false, false⟩] a b = true) ∧
      result = (ranked orderColumn (arranged.take (min limit 100))).map
        ((tableSelect field limit).rowOf ch [] [] 0) := by
  rw [tableSQL_fieldValues] at h
  obtain ⟨last, ⟨countedRows, hcounted, _, hsorted, _, htaken, rfl⟩, hfinal⟩ := h
  obtain ⟨arranged, harranged, hdescending, hranked⟩ := sortSelect_numbers.gives hsorted
  have hlast : last = ranked orderColumn (arranged.take 100) := by
    rw [takeSelect_ranks.gives hranked htaken, rowOf_takeSelect, List.map_id]
    exact ranked_take ..
  have hresult : result = ((ranked orderColumn (arranged.take 100)).take limit).map
      ((tableSelect field limit).rowOf ch [] [] 0) :=
    tableSelect_ranks.gives (.of_eq hlast) hfinal
  rw [ranked_take, List.take_take] at hresult
  exact ⟨countedRows, arranged, hcounted, harranged, hdescending, hresult⟩

/-- The cells of a value and its count. -/
def cellsOf (p : Option Value × ℕ) : Option Value × Option Value := (p.1, some (.number p.2))

/-- The cells of the table's rows: of the values, each with its count, the first so many by their counts. -/
theorem cells_table (hname : fieldColumn field ≠ "count_") (horder : fieldColumn field ≠ orderColumn)
    (h : ((fieldValuesCompiled field at' range).tableSQL lib limit).Gives ch matched result) :
    ∃ listed : List (Option Value × ℕ), listed.Perm (counted (matched.map (keyOf ch lib field))) ∧
      listed.Pairwise (fun p q => q.2 ≤ p.2) ∧
        result.map (cells field) = (listed.take (min limit 100)).map cellsOf := by
  obtain ⟨countedRows, arranged, hcounted, harranged, hdescending, hresult⟩ := ranked_table h
  obtain ⟨listed, hlisted, hperm⟩ : ∃ listed : List (Option Value × ℕ),
      arranged.map (cells field) = listed.map cellsOf ∧ listed.Perm (counted (matched.map (keyOf ch lib field))) :=
    (congrFun₂ (List.eq_map_comp_perm cellsOf) _ _).mpr
      ((harranged.map (cells field)).trans (cells_counted hname hcounted))
  refine ⟨listed, hperm, ?_, ?_⟩
  · rw [List.pairwise_iff_getElem] at hdescending ⊢
    intro i j hi hj hij
    have hlength : (arranged.map (cells field)).length = listed.length := by rw [hlisted, List.length_map]
    rw [List.length_map] at hlength
    have hcount : ∀ k (hk : k < listed.length), arranged[k] "count_" = some (.number listed[k].2) := by
      intro k hk
      have hcells : (arranged.map (cells field))[k]? = (listed.map cellsOf)[k]? := by rw [hlisted]
      simp only [List.getElem?_map, List.getElem?_eq_getElem, hk, hlength, Option.map_some, Option.some.injEq] at hcells
      exact congrArg Prod.snd hcells
    have hle := (mayPrecede_fromLargest (hcount i hi) (hcount j hj)).1
      (hdescending i j (hlength ▸ hi) (hlength ▸ hj) hij)
    exact_mod_cast hle
  · have hnumbered : ∀ row v, cells field (Function.update row orderColumn v) = cells field row := by
      intro row v
      have hcount : "count_" ≠ orderColumn := by decide
      simp [cells, horder, hcount]
    have hsame : cells field ∘ (tableSelect field limit).rowOf ch [] [] 0 = cells field := by
      funext row
      simp [cells, rowOf_tableSelect, hname]
    rw [hresult, List.map_map, hsame, map_ranked hnumbered, List.map_take, hlisted, List.map_take]

/-- The table's rows are the commonest values of the Field, each with how many Logs have it. -/
theorem commonest_table {logs : List Sql.Row} (hlogs : ∀ log ∈ logs, IsLog ch log)
    (hname : fieldColumn field ≠ "count_") (horder : fieldColumn field ≠ orderColumn)
    (hmatched : ((fieldValuesCompiled field at' range).matched lib).Gives ch logs matched)
    (h : ((fieldValuesCompiled field at' range).tableSQL lib limit).Gives ch matched result) :
    ∃ listed : List (Value × ℕ), Commonest (min limit 100) (valuesIn ch field logs) listed ∧
      result.map (cells field) = listed.map fun p => cellsOf (some p.1, p.2) := by
  obtain ⟨sorted, hsorted, hdescending, hresult⟩ := cells_table hname horder h
  have hcounted : (counted (matched.map (keyOf ch lib field))).Perm
      ((counted (valuesIn ch field logs)).map fun p => (some p.1, p.2)) := by
    rw [← counted_map (Option.some_injective _)]
    exact counted_perm (map_keyOf_matched hlogs hmatched)
  obtain ⟨listed, rfl, hperm⟩ : ∃ listed : List (Value × ℕ), sorted = listed.map (fun p => (some p.1, p.2)) ∧
      listed.Perm (counted (valuesIn ch field logs)) :=
    (congrFun₂ (List.eq_map_comp_perm _) _ _).mpr (hsorted.trans hcounted)
  refine ⟨listed.take (min limit 100), .of_sorted hperm ?_ _, ?_⟩
  · rwa [List.pairwise_map] at hdescending
  · rw [hresult, ← List.map_take, List.map_map]
    rfl

end Table

end SolidTrace.LogQuery
