import SolidTrace.LogQuery.Filter
import SolidTrace.LogQuery.Table

/-!
# Every Query can be written

The writer of SQL is partial: it panics at what the compiler lets through to it and it does not know.
Nothing that compiles reaches such a case, in the head, in a stage of the tail or in the table.
-/

namespace SolidTrace.LogQuery

section Statements

/-- SQL that was written: no part of it is a panic. -/
def Sql.Writable (x : Sql) : Prop := x.OnlyNames (· ≠ none)

def OrderTerm.Writable (term : OrderTerm) : Prop := term.x.Writable

def Item.Writable : Item → Prop
  | .value x => x.Writable
  | .rowNumber order => ∀ term ∈ order, term.Writable
  | .countOver partition => ∀ x ∈ partition, x.Writable

def Order.Writable : Order → Prop
  | .terms order => ∀ term ∈ order, term.Writable
  | .all => True

structure Select.Writable (s : Select) : Prop where
  items : ∀ item ∈ s.items, item.1.Writable
  filter : ∀ x ∈ s.filter, x.Writable
  order : s.order.Writable

structure Cte.Writable (cte : Cte) : Prop where
  inner : ∀ s ∈ cte.inner, s.Writable
  outer : cte.outer.Writable

structure Statement.Writable (s : Statement) : Prop where
  ctes : ∀ cte ∈ s.ctes, cte.Writable
  final : s.final.Writable

end Statements

section Fields

/-- Rows whose Fields can be written, and the columns of a scope. -/
structure Fields.Writable (f : Fields) (scope : Scope) : Prop where
  builtIn : ∀ name, (f.builtIn name).Writable
  attributeOf : ∀ t key, (f.attributeOf t key).Writable
  stringColumn : ∀ key, ∀ c ∈ f.stringColumn key, c.Writable
  column : ∀ name, (scope.lookup name).isSome = true → (f.column name).Writable

variable {lib : Library} {f : Fields} {scope : Scope} {agg : Option RateBasis} {x : Expr}

/-- A checked expression reads only what its scope has, and, where rates are allowed, their columns. -/
theorem Checked.readsWritable (h : Checked lib scope agg x) (hf : f.Writable scope)
    (hrates : agg.isSome = true →
      (f.column binSecondsColumn).Writable ∧ (f.column secondCountColumn).Writable) :
    x.ReadsIn f (· ≠ none) := by
  induction h with
  | @builtIn _ name =>
    simp only [Expr.ReadsIn, if_true]
    exact hf.builtIn name
  | @attr _ name =>
    simp only [Expr.ReadsIn, Bool.false_eq_true, if_false]
    exact ⟨fun t => hf.attributeOf t name, hf.stringColumn name⟩
  | @attributeText _ name => exact fun t => hf.attributeOf t name
  | jsonValueText _ _ ih => exact ih hrates
  | @columnRef _ col hcol => exact hf.column col.name (by rw [hcol]; rfl)
  | partOf _ _ _ ih => exact ih hrates
  | literal => trivial
  | compare _ _ _ _ ihx ihy => exact ⟨ihx hrates, ihy hrates⟩
  | textMatch _ _ _ ih => exact ih hrates
  | isEmpty _ ih => exact ih hrates
  | and _ _ _ _ ihx ihy => exact ⟨ihx hrates, ihy hrates⟩
  | or _ _ _ _ ihx ihy => exact ⟨ihx hrates, ihy hrates⟩
  | not _ _ ih => exact ih hrates
  | arith _ _ _ ihx ihy => exact ⟨ihx hrates, ihy hrates⟩
  | negative _ _ ih => exact ih hrates
  | @call _ fn args t _ _ _ ih => exact (allReadIn_iff args).2 fun x hx => ih x hx hrates
  | parsedJSON _ _ ih => exact ih hrates
  | member _ _ ih => exact ih hrates
  | count => trivial
  | rate => exact (hrates rfl).1
  | peakRate => exact (hrates rfl).2
  | @aggregateOf _ fn _ _ _ _ ht ih =>
    cases fn <;> first | exact ih (by simp) | cases ht

/-- A checked expression over its scope is written without a column that is missing. -/
theorem Checked.written (h : Checked lib scope none x) (hf : f.Writable scope) :
    (write lib f x).OnlyNames (· ≠ none) x.typ :=
  h.onlyNames (h.readsWritable hf nofun)

/-- Rows of a relation: any column of theirs can be written, whatever the scope. -/
structure Fields.Total (f : Fields) : Prop where
  writable : ∀ scope, f.Writable scope
  column : ∀ name, (f.column name).Writable

/-- A checked expression is written without a missing column where every column is there. -/
theorem Checked.written_of_total (h : Checked lib scope agg x) (hf : f.Total) :
    (write lib f x).OnlyNames (· ≠ none) x.typ :=
  h.onlyNames (h.readsWritable (hf.writable scope) fun _ => ⟨hf.column _, hf.column _⟩)

/-- The columns of a subquery are all there. -/
theorem tailFields_total (rel : String) : (tailFields rel).Total where
  writable _ := {
    builtIn := fun _ => nofun
    attributeOf := fun _ _ => nofun
    stringColumn := fun _ => nofun
    column := fun _ _ => nofun }
  column _ := nofun

/-- A source of Logs whose Fields can be written. Nothing is asked of its other columns. -/
structure Columns.Writable (cols : Columns) : Prop where
  builtIn : ∀ name, (cols.builtIn name).Writable
  attributeOf : ∀ t key, (cols.attributeOf t key).Writable
  stringColumn : ∀ key, ∀ c ∈ cols.stringColumn key, c.Writable
  searchText : cols.searchText.Writable

/-- The columns of the Logs are there for the Logs' scope. -/
theorem Columns.Writable.toFields {cols : Columns} (h : cols.Writable) :
    cols.toFields.Writable .logScope where
  builtIn := h.builtIn
  attributeOf := h.attributeOf
  stringColumn := h.stringColumn
  column _ hname := by cases hname

/-- The table's columns can all be written. -/
theorem clickHouseColumns_writable (table : Option String) : (clickHouseColumns table).Writable where
  builtIn _ := Option.some_ne_none _
  attributeOf t key := by
    unfold Sql.Writable clickHouseColumns
    simp only
    split <;> simp [jsonAttribute]
  stringColumn key c hc := by
    simp only [clickHouseColumns, Option.mem_def] at hc
    split at hc
    · cases hc
      exact Option.some_ne_none _
    · cases hc
  searchText := Option.some_ne_none _

/-- The table's columns are all there. -/
theorem clickHouseColumns_total (table : Option String) :
    (clickHouseColumns table).toFields.Total where
  writable _ := {
    builtIn := (clickHouseColumns_writable table).builtIn
    attributeOf := (clickHouseColumns_writable table).attributeOf
    stringColumn := (clickHouseColumns_writable table).stringColumn
    column := fun _ _ => nofun }
  column _ := nofun

end Fields

section Tail

variable {lib : Library} {on : String → Fields} {q : Query} {before : List Stage} {c : Chain}
  {scope : Scope} {agg : Option RateBasis} {f : Fields}

/-- A chain whose statements so far can be written. -/
def Chain.Writable (c : Chain) : Prop := ∀ cte ∈ c.ctes, cte.Writable

/-- The chain over a source can be written. -/
theorem Chain.logs_writable (source : String) : (Chain.logs source).Writable := List.forall_mem_nil _

/-- A chain stays one that can be written with a select more. -/
theorem Chain.Writable.add (hc : c.Writable) {outer : Select} {inner : Option Select}
    (houter : outer.Writable) (hinner : ∀ s ∈ inner, s.Writable) : (c.add outer inner).Writable := by
  intro cte hcte
  rcases List.mem_append.1 hcte with hold | hnew
  · exact hc cte hold
  · rw [List.mem_singleton.1 hnew]
    exact ⟨hinner, houter⟩

/-- A SELECT of every column, and more, in no order of its own. -/
theorem writable_all {source : String} {star : Option (List String)} {items : List (Item × String)}
    {filter : Option Sql} {order : List OrderTerm} {limit : Option ℕ} {distinct : Bool}
    {group : Option ℕ} (hitems : ∀ item ∈ items, item.1.Writable)
    (hfilter : ∀ x ∈ filter, x.Writable) (horder : ∀ term ∈ order, term.Writable) :
    Select.Writable ⟨star, items, distinct, source, filter, group, .terms order, limit⟩ :=
  ⟨hitems, hfilter, horder⟩

/-- The select list of checked columns can be written. -/
theorem selectList_writable {columns : List NamedValue}
    (h : ∀ col ∈ columns, Checked lib scope agg col.x) (hf : f.Total) :
    ∀ item ∈ selectList lib columns f, item.1.Writable := by
  intro item hitem
  obtain ⟨col, hcol, rfl⟩ := List.mem_map.1 hitem
  exact ((h col hcol).written_of_total hf).value

/-- The order by checked keys can be written. -/
theorem orderBy_writable {keys : List SortKey} (h : ∀ key ∈ keys, Checked lib scope none key.x)
    (hf : f.Total) : ∀ term ∈ orderBy lib keys f, term.Writable := by
  intro term hterm
  obtain ⟨key, hkey, hterm⟩ := List.mem_flatMap.1 hterm
  have hwritten := (h key hkey).written_of_total hf
  split at hterm
  · rw [List.mem_singleton.1 hterm]
    exact hwritten.value
  next hdynamic =>
    obtain ⟨t, -, rfl⟩ := List.mem_map.1 hterm
    exact hwritten.partsOf (by simpa using hdynamic) t

/-- The order newest first can be written. -/
theorem newestFirstOrder_writable {cols : Fields} (hbuiltIn : ∀ name, (cols.builtIn name).Writable) :
    ∀ term ∈ newestFirstOrder cols, term.Writable := by
  intro term hterm
  simp only [newestFirstOrder, List.mem_cons, List.not_mem_nil, or_false] at hterm
  rcases hterm with rfl | rfl
  · exact hbuiltIn "time"
  · exact ⟨hbuiltIn "id", trivial⟩

/-- The order by the column of the order can be written. -/
theorem orderColumn_writable (hf : f.Total) {asc nullsFirst : Bool} :
    ∀ term ∈ [OrderTerm.mk (f.column orderColumn) asc nullsFirst], term.Writable := by
  intro term hterm
  rw [List.mem_singleton.1 hterm]
  exact hf.column orderColumn

/-- The bin of a rate is one of the columns grouped by. -/
theorem rateBin_mem {columnsBy : List NamedValue} {col : NamedValue} {size : ℤ}
    (h : rateBin before columnsBy = some (col, size)) : col ∈ columnsBy := by
  induction columnsBy with
  | nil => cases h
  | cons col' rest ih =>
    unfold rateBin at h
    split at h
    · cases h
      exact List.mem_cons_self
    · exact List.mem_cons_of_mem _ (ih h)

/-- The second partition of checked columns can be written. -/
theorem secondPartition_writable {columnsBy : List NamedValue}
    (h : ∀ col ∈ columnsBy, Checked lib scope none col.x) (hf : f.Total) :
    ∀ x ∈ secondPartition lib columnsBy f, x.Writable := by
  intro x hx
  rcases List.mem_append.1 hx with hx | hx
  · obtain ⟨col, hcol, rfl⟩ := List.mem_map.1 hx
    exact ((h col hcol).written_of_total hf).value
  · rw [List.mem_singleton.1 hx]
    exact ⟨(hf.writable scope).builtIn "time", trivial, trivial⟩

/-- The seconds of a rate's bin can be written. -/
theorem binSeconds_writable {columnsBy : List NamedValue}
    (h : ∀ col ∈ columnsBy, Checked lib scope none col.x) (hf : f.Total) :
    (binSeconds lib q before columnsBy f).Writable := by
  unfold binSeconds
  split
  · trivial
  next bin size hbin =>
    have hstart : (writeValue lib f bin.x).OnlyNames (· ≠ none) :=
      ((h bin (rateBin_mem hbin)).written_of_total hf).value
    simp [Sql.Writable, writeLiteral, hstart]

/-- The columns of rates can be written. -/
theorem rateColumns_writable {columnsBy aggregates : List NamedValue}
    (h : ∀ col ∈ columnsBy, Checked lib scope none col.x) (hf : f.Total) :
    ∀ item ∈ rateColumns lib q before columnsBy aggregates f, item.1.Writable := by
  intro item hitem
  rcases List.mem_append.1 hitem with hitem | hitem
  · split at hitem
    · rw [List.mem_singleton.1 hitem]
      exact binSeconds_writable h hf
    · cases hitem
  · split at hitem
    · rw [List.mem_singleton.1 hitem]
      exact secondPartition_writable h hf
    · cases hitem

/-- A stage that compiles adds statements that can be written. -/
theorem writeStage_writable {s : Stage} (hs : StageChecked lib before scope s)
    (hon : ∀ rel, (on rel).Total) (hc : c.Writable) : (writeStage lib on q before c s).Writable := by
  have hf := hon c.prev
  have hnewest : ∀ rel, ∀ term ∈ newestFirstOrder (on rel), term.Writable :=
    fun rel => newestFirstOrder_writable ((hon rel).writable scope).builtIn
  cases s with
  | whereStage p =>
    refine hc.add (writable_all nofun ?_ nofun) nofun
    intro x hx
    cases hx
    exact (hs.1.written_of_total hf).condition hs.2 false
  | searchStage => exact hc
  | projectStage columns =>
    refine hc.add (writable_all ?_ nofun nofun) nofun
    have hcolumns := selectList_writable hs.1 hf
    unfold keepOrder
    split
    · refine List.forall_mem_append.2 ⟨hcolumns, ?_⟩
      simpa [Item.Writable] using hf.column orderColumn
    · exact hcolumns
  | extendStage columns => exact hc.add (writable_all (selectList_writable hs.1 hf) nofun nofun) nofun
  | summarizeStage columnsBy aggregates =>
    obtain ⟨hby, haggs, -⟩ := hs
    simp only [writeStage]
    have hrates : ∀ c' : Chain, c'.Writable →
        (c'.add { Select.list (selectList lib (columnsBy ++ aggregates) (on c'.prev)) c'.prev with
          group := some columnsBy.length } none).Writable := by
      intro c' hc'
      refine hc'.add (writable_all ?_ nofun nofun) nofun
      have hall := fun f (hf : Fields.Total f) => List.forall_mem_append.2
        ⟨selectList_writable hby.1 hf, selectList_writable haggs.1 hf⟩
      unfold selectList at hall ⊢
      rw [List.map_append]
      exact hall _ (hon c'.prev)
    split
    · exact hrates c hc
    · exact hrates _ (hc.add (writable_all (rateColumns_writable hby.1 hf) nofun nofun) nofun)
  | sortStage keys =>
    refine hc.add (writable_all ?_ nofun nofun) nofun
    simpa [Item.Writable] using orderBy_writable hs hf
  | takeStage n =>
    simp only [writeStage]
    split
    · exact hc.add (writable_all nofun nofun (orderColumn_writable hf)) nofun
    · split
      · refine hc.add (writable_all ?_ nofun nofun) ?_
        · simpa [Item.Writable] using hnewest takenRelation
        · intro inner hinner
          cases hinner
          exact writable_all nofun nofun (hnewest c.prev)
      · exact hc.add (writable_all nofun nofun nofun) nofun
  | topStage n key =>
    have hkey : ∀ rel, ∀ term ∈ orderBy lib [key] (on rel), term.Writable :=
      fun rel => orderBy_writable (by simpa using hs.2) (hon rel)
    refine hc.add (writable_all ?_ nofun nofun) ?_
    · simpa [Item.Writable] using hkey takenRelation
    · intro inner hinner
      cases hinner
      exact writable_all nofun nofun (hkey c.prev)
  | countStage =>
    refine hc.add (writable_all ?_ nofun nofun) nofun
    intro item hitem
    rw [List.mem_singleton.1 hitem]
    trivial
  | distinctStage columns =>
    exact hc.add (writable_all (selectList_writable hs.1 hf) nofun nofun) nofun

/-- Stages that compile one after another add statements that can be written. -/
theorem writeStages_writable {stages : List Stage} (hs : TailChecked lib before scope stages)
    (hon : ∀ rel, (on rel).Total) (hc : c.Writable) :
    (writeStages lib on q before c stages).Writable := by
  induction stages generalizing before scope c with
  | nil => exact hc
  | cons s rest ih => exact ih hs.2 (writeStage_writable hs.1 hon hc)

/-- The table's columns can be written where the tail ends. -/
theorem outputOf_written {names : List String} (hf : f.Total) :
    ∀ col ∈ outputOf scope names, (write lib f col.x).OnlyNames (· ≠ none) col.x.typ := by
  have hfields := hf.writable scope
  have hcolumn : ∀ name t message,
      (write lib f (.columnRef name t message)).OnlyNames (· ≠ none) t :=
    fun name t message => Written.onlyNames_ofValue (hf.column name)
  have hattribute : ∀ name, (write lib f (.fieldRef name false .dynamic)).OnlyNames (· ≠ none) .dynamic := by
    intro name
    refine onlyNames_writeFieldRef nofun ?_
    simp only [Expr.ReadsIn, Bool.false_eq_true, if_false]
    exact ⟨fun t => hfields.attributeOf t name, hfields.stringColumn name⟩
  have hbuiltIn : ∀ name ∈ builtInOrder,
      (write lib f (.fieldRef name true ((builtInFields name).getD .any))).OnlyNames (· ≠ none)
        ((builtInFields name).getD .any) := by
    intro name hname
    refine onlyNames_writeFieldRef (fun _ => ?_) ?_
    · revert name
      decide
    · simp only [Expr.ReadsIn, if_true]
      exact hfields.builtIn name
  intro col hcol
  unfold outputOf at hcol
  split at hcol
  · simp only [logColumns, List.mem_append, List.mem_map] at hcol
    obtain (⟨name, hname, rfl⟩ | ⟨name, -, rfl⟩) | ⟨col, -, rfl⟩ := hcol
    · split
      · exact hcolumn _ _ _
      · exact hbuiltIn name hname
    · exact hattribute name
    · exact hcolumn _ _ _
  · obtain ⟨col, -, rfl⟩ := List.mem_map.1 hcol
    exact hcolumn _ _ _

end Tail

section Queries

variable {lib : Library} {q : Query}

/-- The tail of a checked Query can be written. -/
theorem writeTail_writable {on : String → Fields} {c : Chain} (hq : QueryChecked lib q)
    (hon : ∀ rel, (on rel).Total) (hc : c.Writable) : (q.writeTail lib on c).Writable :=
  writeStages_writable hq.tail hon hc

/-- The output of a checked Query is written without a missing column. -/
theorem output_written {f : Fields} (hq : QueryChecked lib q) (hf : f.Total) :
    ∀ col ∈ q.output, (write lib f col.x).OnlyNames (· ≠ none) col.x.typ := by
  cases htable : q.table with
  | true =>
    obtain ⟨names, houtput⟩ := hq.output htable
    rw [houtput]
    exact outputOf_written hf
  | false =>
    rw [hq.noOutput htable]
    nofun

/-- The order that a chain keeps can be written. -/
theorem Chain.order_writable {c : Chain} {f : Fields} (hf : f.Total) : (c.order f).Writable := by
  unfold Chain.order
  split
  · exact orderColumn_writable hf
  · split
    · exact newestFirstOrder_writable (hf.writable .logScope).builtIn
    · trivial

/-- The test of each stage of the head can be written. -/
theorem headTests_writable {cols : Columns} (hq : QueryChecked lib q) (hcols : cols.Writable) :
    ∀ s ∈ q.head, (∀ w ∈ headCondition lib cols s, w.Writable) ∧
      ∀ test ∈ headTests lib cols s, test.2.Writable := by
  have hsearch : ∀ terms, (writeSearch cols terms).Writable := by
    intro terms
    refine (onlyNames_disjunction _).2 fun x hx => ?_
    obtain ⟨term, -, hx⟩ := List.mem_flatMap.1 hx
    have hmessage : (cols.builtIn "message").OnlyNames (· ≠ none) := hcols.builtIn "message"
    have htext : cols.searchText.OnlyNames (· ≠ none) := hcols.searchText
    simp only [List.mem_cons, List.not_mem_nil, or_false] at hx
    rcases hx with rfl | rfl
    · simp [hmessage]
    · simp [htext]
  have htest : ∀ p, IsTest lib .logScope none p → (writeCondition lib cols.toFields p false).Writable :=
    fun p hp => (hp.1.written hcols.toFields).condition hp.2 false
  intro s hs
  have hchecked := (hq.head s hs).2
  cases s with
  | whereStage p =>
    simp only [headCondition, headTests, Option.mem_def, Option.some.injEq, forall_eq',
      List.forall_mem_map]
    exact ⟨htest p hchecked, fun test hmem => htest test (conjuncts_isTest hchecked test hmem)⟩
  | searchStage terms => simpa [headCondition, headTests] using hsearch terms
  | _ => simp [headCondition, headTests]

/-- Conditions that can be written can be written joined. -/
theorem allOf_writable {conditions : List Sql} (h : ∀ x ∈ conditions, x.Writable) :
    ∀ w ∈ allOf conditions, w.Writable := by
  intro w hw
  cases conditions with
  | nil => cases hw
  | cons x xs =>
    cases hw
    exact (onlyNames_conjunction _).2 h

/-- The condition of a checked Query can be written over columns that can. -/
theorem where_writable {cols : Columns} (hq : QueryChecked lib q) (hcols : cols.Writable) :
    ∀ w ∈ q.where lib cols, w.Writable := by
  refine allOf_writable fun x hx => ?_
  obtain ⟨s, hs, hx⟩ := List.mem_filterMap.1 hx
  exact (headTests_writable hq hcols s hs).1 x hx

/-- A part of the condition of a checked Query can be written over columns that can. -/
theorem filter_writable {cols : Columns} (hq : QueryChecked lib q) (hcols : cols.Writable)
    (part : Bool × Sql → Bool) :
    ∀ w ∈ allOf (((q.head.flatMap (headTests lib cols)).filter part).map Prod.snd), w.Writable := by
  refine allOf_writable fun x hx => ?_
  obtain ⟨test, htest, rfl⟩ := List.mem_map.1 hx
  obtain ⟨s, hs, htest⟩ := List.mem_flatMap.1 (List.mem_filter.1 htest).1
  exact (headTests_writable hq hcols s hs).2 test htest

/-- The SQL of a checked Query's table can be written. -/
theorem tableSQL_writable (hq : QueryChecked lib q) (limit : ℕ) :
    (q.tableSQL lib limit).Writable := by
  have hchain := writeTail_writable hq tailFields_total (Chain.logs_writable sourceRelation)
  unfold Query.tableSQL
  generalize q.writeTail lib tailFields (.logs sourceRelation) = c at hchain
  have hlast := tailFields_total c.prev
  refine ⟨hchain, fun item hitem => ?_, nofun, Chain.order_writable hlast⟩
  obtain ⟨col, hcol, rfl⟩ := List.mem_map.1 hitem
  exact (output_written hq hlast col hcol).value

/-- A column as it is shown can be written. -/
theorem readableColumn_writable {f : Fields} {col : NamedValue}
    (h : (write lib f col.x).OnlyNames (· ≠ none) col.x.typ) :
    (readableColumn lib f col).1.Writable := by
  unfold readableColumn Item.Writable
  simp only
  split
  next hdynamic =>
    have hparts := h.partsOf (by simpa using hdynamic)
    simp [Sql.Writable, dynamicSQLValue, dynamicParts, hparts]
  · exact h.value

/-- A table as it is shown can be written. -/
theorem readableTable_writable {columns : List NamedValue} {c : Chain} {f : Fields} (hc : c.Writable)
    (hf : f.Total)
    (hcolumns : ∀ col ∈ columns, (write lib f col.x).OnlyNames (· ≠ none) col.x.typ) :
    (readableTable lib columns c f).Writable := by
  refine ⟨hc, fun item hitem => ?_, nofun, ?_⟩
  · obtain ⟨col, hcol, rfl⟩ := List.mem_map.1 hitem
    exact readableColumn_writable (hcolumns col hcol)
  · unfold readableTable
    simp only
    split
    · intro term hterm
      obtain ⟨col, hcol, rfl⟩ := List.mem_map.1 hterm
      exact (hcolumns col hcol).value
    · exact Chain.order_writable hf

/-- The chain of a table as it is shown can be written. -/
theorem readableChain_writable {head : Option Sql} (h : ∀ w ∈ head, w.Writable) :
    (readableChain head).Writable := by
  have hlogs := Chain.logs_writable readableLogs
  cases head with
  | none => exact hlogs
  | some condition => exact hlogs.add (writable_all nofun h nofun) nofun

/-- The SQL of a checked Query as it is shown can be written. -/
theorem readableSQL_writable (hq : QueryChecked lib q) : (q.readableSQL lib).Writable := by
  have hcols := clickHouseColumns_writable none
  have hwhere := where_writable hq hcols
  have hon := fun rel => clickHouseColumns_total (some rel)
  unfold Query.readableSQL
  simp only
  split
  · refine ⟨List.forall_mem_nil _, List.forall_mem_nil _, hwhere, ?_⟩
    exact newestFirstOrder_writable hcols.builtIn
  · exact readableTable_writable (writeTail_writable hq hon (readableChain_writable hwhere)) (hon _)
      (output_written hq (hon _))

variable {env : Env} {tree : Syntax.Query}

/-- Whatever compiles is written without a panic: its head, whole and in two parts, against any source
of Logs, of which it names no other column; its table; and the SQL a person reads. -/
theorem compiled_writable (h : compileQuery env tree = .ok q) :
    (∀ cols : Columns, cols.Writable →
      (∀ w ∈ q.where env.lib cols, w.Writable) ∧
      (∀ w ∈ (q.filter env.lib cols).rest, w.Writable) ∧
      ∀ w ∈ (q.filter env.lib cols).message, w.Writable) ∧
    (∀ limit, (q.tableSQL env.lib limit).Writable) ∧
    (q.readableSQL env.lib).Writable := by
  have hq := compileQuery_checked h
  refine ⟨fun cols hcols => ⟨where_writable hq hcols, ?_, ?_⟩, tableSQL_writable hq,
    readableSQL_writable hq⟩
  · exact filter_writable hq hcols _
  · exact filter_writable hq hcols _

end Queries

section Samples

/-- A library that reads a few whole numbers, for Queries given as trees. -/
def fewNumbers : Library where
  parseFloat text :=
    if text = "1" then some 1 else if text = "5" then some 5 else if text = "10" then some 10 else none
  formatFloat _ := ""
  parseDateTime _ := none
  regexError _ := none
  numSubexp _ := 0
  quote text := text
  formatDuration _ := ""

namespace Sample

/-- Bounds of a minute, without filters. -/
def env : Env := ⟨fewNumbers, "", ⟨0, 60000000000, 60000000000⟩, 60000000000, fun _ => [], false⟩

/-- Whether a tree compiles to a Query that passes a test. -/
def compilesTo (tree : Syntax.Query) (test : Query → Bool) : Bool :=
  match compileQuery env tree with
  | .ok q => test q
  | .error _ => false

/-- A Query that compiles to what a test says is one. -/
theorem exists_of_compilesTo {tree : Syntax.Query} {test : Query → Bool}
    (h : compilesTo tree test = true) : ∃ q, compileQuery env tree = .ok q ∧ test q = true := by
  unfold compilesTo at h
  split at h
  next q hq => exact ⟨q, hq, h⟩
  · cases h

/-- The parts of a Query's tree, at no place of a text. -/
def field (name : String) : Syntax.Expr := .ident ⟨name, .null, false⟩

def number (text : String) : Syntax.Expr := .basicLit ⟨.null, .number, text⟩

def text (value : String) : Syntax.Expr := .basicLit ⟨.null, .string, value⟩

def timespan (value : String) : Syntax.Expr := .basicLit ⟨.null, .timespan, value⟩

def call (fn : String) (args : List Syntax.Expr) : Syntax.Expr := .call ⟨fn, .null, false⟩ .null args .null

def binary (op : Syntax.BinaryOp) (x y : Syntax.Expr) : Syntax.Expr := .binary x .null op y

end Sample

/-- `where service == "api" | extend slow = duration | where slow > 5 | summarize rate() by bin(time, 1s)`. -/
private def slowRates : Syntax.Query :=
  ⟨none, [
    .whereStage .null .null (Sample.binary .eq (Sample.field "service") (Sample.text "api")),
    .extendStage .null .null [⟨some ⟨"slow", .null, false⟩, Sample.field "duration"⟩],
    .whereStage .null .null (Sample.binary .gt (Sample.field "slow") (Sample.number "5")),
    .summarizeStage .null .null [⟨none, Sample.call "rate" []⟩]
      [⟨none, Sample.call "bin" [Sample.field "time", Sample.timespan "1s"]⟩]]⟩

/-- The slow rates by minute compile, and their SQL can be written. -/
theorem compiled_writable_slowRates :
    ∃ q, compileQuery Sample.env slowRates = .ok q ∧ q.table = true ∧
      (q.tableSQL fewNumbers 10).Writable := by
  obtain ⟨q, hq, htable⟩ := @Sample.exists_of_compilesTo slowRates Query.table (by decide +kernel)
  exact ⟨q, hq, htable, (compiled_writable hq).2.1 10⟩

end Samples

end SolidTrace.LogQuery
