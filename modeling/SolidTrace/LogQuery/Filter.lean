import SolidTrace.LogQuery.Names
import SolidTrace.LogQuery.Narrow

/-!
# A Query's head in two parts

A read of Logs tests a Query's head in two parts: the tests that read message, search among them, and
the rest, which it can test first. Together they are the head, and the rest names no column that
message is kept in.
-/

namespace SolidTrace.LogQuery

section Message

mutual

/-- Whether an expression reads a Log's message. -/
def readsMessage : Expr → Bool
  | .fieldRef name builtIn t => (Expr.fieldRef name builtIn t).isMessage
  | .columnRef name t message => (Expr.columnRef name t message).isMessage
  | .partOf x _ => readsMessage x
  | .compare x _ y => readsMessage x || readsMessage y
  | .textMatch _ x _ _ => readsMessage x
  | .isEmpty x => readsMessage x
  | .and x y => readsMessage x || readsMessage y
  | .or x y => readsMessage x || readsMessage y
  | .not x => readsMessage x
  | .arith _ x y _ => readsMessage x || readsMessage y
  | .negative x => readsMessage x
  | .call _ args _ => anyReadsMessage args
  | .parsedJSON x => readsMessage x
  | .member x _ => readsMessage x
  | .jsonValueText x => readsMessage x
  | _ => false

def anyReadsMessage : List Expr → Bool
  | [] => false
  | x :: rest => readsMessage x || anyReadsMessage rest

end

/-- The conditions all of which a condition is: those it ands. -/
def conjuncts : Expr → List Expr
  | .and x y => conjuncts x ++ conjuncts y
  | p => [p]

end Message

section Filter

variable (lib : Library) (cols : Columns)

/-- A condition on Logs in two parts, either of which may keep every Log. -/
structure Filter where
  rest : Option Sql
  message : Option Sql

/-- The tests of a stage of the head, each with whether it reads message. -/
def headTests : Stage → List (Bool × Sql)
  | .whereStage p =>
    (conjuncts p).map fun test => (readsMessage test, writeCondition lib cols.toFields test false)
  | .searchStage terms => [(true, writeSearch cols terms)]
  | _ => []

/-- A Query's head as `Query.where` writes it, in two parts. -/
def Query.filter (q : Query) : Filter where
  rest := allOf (((q.head.flatMap (headTests lib cols)).filter fun test => !test.1).map Prod.snd)
  message := allOf (((q.head.flatMap (headTests lib cols)).filter fun test => test.1).map Prod.snd)

/-- Whether a row passes both parts of a condition. -/
def Filter.keeps (ch : ClickHouse) (row : Sql.Row) (filter : Filter) : Bool :=
  [filter.rest, filter.message].all fun part => part.all fun x => truth (x.eval ch [] row) = some true

variable {lib cols} {ch : ClickHouse} {row : Sql.Row}

/-- A predicate holds when each of its conjuncts does. -/
theorem holds_conjuncts (p : Expr) :
    (∀ test ∈ conjuncts p, (writeCondition lib cols.toFields test false).holds ch [] row) ↔
      (writeCondition lib cols.toFields p false).holds ch [] row := by
  fun_induction conjuncts p with
  | case1 x y hx hy =>
    simp only [List.forall_mem_append, hx, hy]
    simp [writeCondition, write, Written.ofTest, andCondition]
  | case2 => simp

/-- Tests joined keep a row when each of them holds of it. -/
theorem keeps_allOf (tests : List Sql) :
    ((allOf tests).all fun x => truth (x.eval ch [] row) = some true) = true ↔
      ∀ x ∈ tests, x.holds ch [] row := by
  cases tests with
  | nil => simp [allOf]
  | cons x xs =>
    simp only [allOf, Option.all_some, decide_eq_true_eq]
    exact Sql.holds_conjunction

/-- The tests of a stage hold when its condition does. -/
theorem holds_headTests (s : Stage) :
    (∀ test ∈ headTests lib cols s, test.2.holds ch [] row) ↔
      ∀ w ∈ headCondition lib cols s, w.holds ch [] row := by
  cases s with
  | whereStage p =>
    simp only [headTests, headCondition, List.forall_mem_map, Option.mem_def, Option.some.injEq,
      forall_eq']
    exact holds_conjuncts p
  | _ => simp [headTests, headCondition]

/-- A Log passes the two parts of a head when it passes the head. -/
theorem Query.filter_keeps_iff (q : Query) :
    (q.filter lib cols).keeps ch row = true ↔ q.passesHead ch lib cols row := by
  have hparts : (q.filter lib cols).keeps ch row = true ↔
      ∀ test ∈ q.head.flatMap (headTests lib cols), test.2.holds ch [] row := by
    simp only [Filter.keeps, Query.filter, List.all_cons, List.all_nil, Bool.and_true,
      Bool.and_eq_true, keeps_allOf, List.forall_mem_map, List.mem_filter]
    constructor
    · intro h test htest
      cases hmessage : test.1 with
      | true => exact h.2 test ⟨htest, hmessage⟩
      | false => exact h.1 test ⟨htest, by simp [hmessage]⟩
    · exact fun h => ⟨fun test htest => h test htest.1, fun test htest => h test htest.1⟩
  rw [hparts, Query.passesHead_iff]
  simp only [List.mem_flatMap, forall_exists_index, and_imp]
  constructor
  · exact fun h s hs => (holds_headTests s).1 fun test htest => h test s hs htest
  · exact fun h test s hs htest => (holds_headTests s).2 (h s hs) test htest

end Filter

section Rest

variable {lib : Library} {cols : Columns} {column : String}

/-- A column that only message is kept in: no other Field is read from it. -/
structure Columns.MessageOnly (cols : Columns) (column : String) : Prop where
  builtIn : ∀ name, name ≠ "message" → (cols.builtIn name).OnlyNames (· ≠ some column)
  attributeOf : ∀ t key, (cols.attributeOf t key).OnlyNames (· ≠ some column)
  stringColumn : ∀ key, ∀ c ∈ cols.stringColumn key, c.OnlyNames (· ≠ some column)

/-- Only the message of the table's columns holds the message. -/
theorem clickHouseColumns_messageOnly (table : Option String) :
    (clickHouseColumns table).MessageOnly "message" where
  builtIn name h := by simpa [clickHouseColumns] using h
  attributeOf t key := by
    simp only [clickHouseColumns]
    split
    · simp [jsonAttribute]
    · simp
  stringColumn key c hc := by
    simp only [clickHouseColumns, Option.mem_def] at hc
    split at hc
    · cases hc
      simp
    · cases hc

/-- None of some expressions reads the message. -/
theorem anyReadsMessage_iff (xs : List Expr) :
    anyReadsMessage xs = false ↔ ∀ x ∈ xs, readsMessage x = false := by
  induction xs with
  | nil => simp [anyReadsMessage]
  | cons x rest ih => simp [anyReadsMessage, ih]

/-- An expression of the head that does not read message reads no column of it. -/
theorem Checked.readsIn_of_not_readsMessage {x : Expr} (h : Checked lib .logScope none x)
    (hmessage : readsMessage x = false) (hcols : cols.MessageOnly column) :
    x.ReadsIn cols.toFields (· ≠ some column) := by
  generalize hnone : (none : Option RateBasis) = agg at h
  induction h with
  | @builtIn _ name t =>
    have hname : name ≠ "message" := by simpa [readsMessage, Expr.isMessage] using hmessage
    simpa [Expr.ReadsIn] using hcols.builtIn name hname
  | @attr _ name =>
    simp only [Expr.ReadsIn, Bool.false_eq_true, if_false]
    exact ⟨fun t => hcols.attributeOf t name, hcols.stringColumn name⟩
  | @attributeText _ name => exact fun t => hcols.attributeOf t name
  | jsonValueText _ _ ih => exact ih (by simpa [readsMessage] using hmessage) hnone
  | columnRef hcol => cases hcol
  | partOf _ _ _ ih => exact ih (by simpa [readsMessage] using hmessage) hnone
  | literal => trivial
  | compare _ _ _ _ ihx ihy =>
    simp only [readsMessage, Bool.or_eq_false_iff] at hmessage
    exact ⟨ihx hmessage.1 hnone, ihy hmessage.2 hnone⟩
  | textMatch _ _ _ ih => exact ih (by simpa [readsMessage] using hmessage) hnone
  | isEmpty _ ih => exact ih (by simpa [readsMessage] using hmessage) hnone
  | and _ _ _ _ ihx ihy =>
    simp only [readsMessage, Bool.or_eq_false_iff] at hmessage
    exact ⟨ihx hmessage.1 hnone, ihy hmessage.2 hnone⟩
  | or _ _ _ _ ihx ihy =>
    simp only [readsMessage, Bool.or_eq_false_iff] at hmessage
    exact ⟨ihx hmessage.1 hnone, ihy hmessage.2 hnone⟩
  | not _ _ ih => exact ih (by simpa [readsMessage] using hmessage) hnone
  | arith _ _ _ ihx ihy =>
    simp only [readsMessage, Bool.or_eq_false_iff] at hmessage
    exact ⟨ihx hmessage.1 hnone, ihy hmessage.2 hnone⟩
  | negative _ _ ih => exact ih (by simpa [readsMessage] using hmessage) hnone
  | @call _ fn args t _ _ _ ih =>
    have hargs := (anyReadsMessage_iff args).1 (by simpa [readsMessage] using hmessage)
    exact (allReadIn_iff args).2 fun x hx => ih x hx (hargs x hx) hnone
  | parsedJSON _ _ ih => exact ih (by simpa [readsMessage] using hmessage) hnone
  | member _ _ ih => exact ih (by simpa [readsMessage] using hmessage) hnone
  | count => cases hnone
  | rate => cases hnone
  | peakRate => cases hnone
  | aggregateOf => cases hnone

/-- The conjuncts of a test are tests. -/
theorem conjuncts_isTest {scope : Scope} {p : Expr} (h : IsTest lib scope none p) :
    ∀ test ∈ conjuncts p, IsTest lib scope none test := by
  fun_induction conjuncts p with
  | case1 x y ihx ihy =>
    obtain ⟨hchecked, -⟩ := h
    cases hchecked with
    | and hx hy htx hty => exact List.forall_mem_append.2 ⟨ihx ⟨hx, htx⟩, ihy ⟨hy, hty⟩⟩
  | case2 => simpa using h

/-- The part of a head that is tested first names no column of message. -/
theorem Query.filter_rest_onlyNames {q : Query} (hq : QueryChecked lib q)
    (hcols : cols.MessageOnly column) :
    ∀ rest ∈ (q.filter lib cols).rest, rest.OnlyNames (· ≠ some column) := by
  have htests : ∀ test ∈ q.head.flatMap (headTests lib cols), test.1 = false →
      test.2.OnlyNames (· ≠ some column) := by
    intro test htest hfree
    obtain ⟨s, hs, htest⟩ := List.mem_flatMap.1 htest
    have hchecked := (hq.head s hs).2
    cases s with
    | whereStage p =>
      simp only [headTests, List.mem_map] at htest
      obtain ⟨part, hpart, rfl⟩ := htest
      obtain ⟨hx, hbool⟩ := conjuncts_isTest hchecked part hpart
      have hreads := hx.readsIn_of_not_readsMessage hfree hcols
      exact (hx.onlyNames hreads).condition hbool false
    | searchStage terms =>
      simp only [headTests, List.mem_singleton] at htest
      subst htest
      cases hfree
    | _ => cases htest
  intro rest hrest
  simp only [Query.filter] at hrest
  generalize htests' : ((q.head.flatMap (headTests lib cols)).filter fun test => !test.1).map Prod.snd =
    tests at hrest
  have hall : ∀ x ∈ tests, x.OnlyNames (· ≠ some column) := by
    subst htests'
    intro x hx
    simp only [List.mem_map, List.mem_filter, Bool.not_eq_true'] at hx
    obtain ⟨test, ⟨htest, hfree⟩, rfl⟩ := hx
    exact htests test htest hfree
  cases tests with
  | nil => cases hrest
  | cons x xs =>
    cases hrest
    exact (onlyNames_conjunction _).2 hall

end Rest

section Reads

/-- The clauses of a read of Logs. -/
structure ReadClauses where
  prewhere : List Sql
  wheres : List Sql

/-- The clauses of a read of the Logs that meet conditions and a filter. With tests of both kinds, the
rest are in PREWHERE, so that message is read only for the Logs that pass the rest. -/
def whereClause (conditions : List Sql) (filter : Filter) : ReadClauses :=
  match filter.rest, filter.message with
  | rest, none => ⟨[], conditions ++ rest.toList⟩
  | none, some message => ⟨[], conditions ++ [message]⟩
  | some rest, some message => ⟨conditions ++ [rest], [message]⟩

/-- Whether a row meets conditions. -/
def meets (ch : ClickHouse) (conditions : List Sql) (row : Sql.Row) : Bool :=
  conditions.all fun x => truth (x.eval ch [] row) = some true

/-- The rows a read gives: those that pass its PREWHERE and then its WHERE. -/
def ReadClauses.read (ch : ClickHouse) (clauses : ReadClauses) (rows : List Sql.Row) : List Sql.Row :=
  (rows.filter (meets ch clauses.prewhere)).filter (meets ch clauses.wheres)

/-- A where clause reads the rows that it keeps. -/
theorem read_whereClause (ch : ClickHouse) (conditions : List Sql) (filter : Filter)
    (rows : List Sql.Row) : (whereClause conditions filter).read ch rows =
      rows.filter fun row => meets ch conditions row && filter.keeps ch row := by
  unfold ReadClauses.read
  rw [List.filter_filter]
  congr 1
  funext row
  obtain ⟨rest, message⟩ := filter
  cases rest <;> cases message <;>
    simp [whereClause, meets, Filter.keeps, Bool.and_assoc, Bool.and_comm, Bool.and_left_comm]

variable {env : Env} {tree : Syntax.Query} {q : Query}

/-- The split of a head keeps the Logs that the head keeps, reads them when it is tested one part after
the other, and names no column of message in the part it tests first. -/
theorem filter_splits (h : compileQuery env tree = .ok q) :
    (∀ (cols : Columns) (ch : ClickHouse) (row : Sql.Row),
      (q.filter env.lib cols).keeps ch row = true ↔ ∀ w ∈ q.where env.lib cols, w.holds ch [] row) ∧
    (∀ (cols : Columns) (column : String), cols.MessageOnly column →
      ∀ rest ∈ (q.filter env.lib cols).rest, rest.OnlyNames (· ≠ some column)) ∧
    (∀ table, ∀ rest ∈ (q.filter env.lib (clickHouseColumns table)).rest,
      rest.OnlyNames (· ≠ some "message")) ∧
    ∀ (cols : Columns) (ch : ClickHouse) (conditions : List Sql) (rows : List Sql.Row),
      (whereClause conditions (q.filter env.lib cols)).read ch rows =
        rows.filter (meets ch (conditions ++ (q.where env.lib cols).toList)) := by
  have hq := compileQuery_checked h
  have hkeeps : ∀ (cols : Columns) (ch : ClickHouse) (row : Sql.Row),
      (q.filter env.lib cols).keeps ch row = true ↔ ∀ w ∈ q.where env.lib cols, w.holds ch [] row :=
    fun cols ch row => Query.filter_keeps_iff q
  refine ⟨hkeeps, fun cols column hcols => Query.filter_rest_onlyNames hq hcols,
    fun table => Query.filter_rest_onlyNames hq (clickHouseColumns_messageOnly table), ?_⟩
  intro cols ch conditions rows
  rw [read_whereClause]
  congr 1
  funext row
  rw [Bool.eq_iff_iff]
  simp [meets, hkeeps, Sql.holds]

private def splitEnv : Env := ⟨Library.readsNothing, "", ⟨0, 9000, 9000⟩, 9000, fun _ => [], false⟩

/-- `where service == "api" and message contains "refused"`. -/
private def splitTree : Syntax.Query :=
  ⟨none, [.whereStage .null .null (.binary
    (.binary (.ident ⟨"service", .null, false⟩) .null .eq (.basicLit ⟨.null, .string, "api"⟩)) .null .and
    (.binary (.ident ⟨"message", .null, false⟩) .null .contains
      (.basicLit ⟨.null, .string, "refused"⟩)))]⟩

private def splitQuery : Query where
  head := [.whereStage (.and
    (.compare (.fieldRef "service" true .string) .eq (.literal (.string "api")))
    (.textMatch .contains (.fieldRef "message" true .string) "refused" false))]
  tail := []
  fromTime := 0
  toTime := 9000
  parameters := []
  table := false
  take := none
  reads := []
  output := []
  shape := ⟨fun _ => none, false⟩

/-- The service is tested before the message is read. -/
theorem filter_splits_service :
    compileQuery splitEnv splitTree = .ok splitQuery ∧
    (splitQuery.filter Library.readsNothing (clickHouseColumns none)).rest =
      some (.fn .equals [.column none "service", .text "api"]) ∧
    ∀ rest ∈ (splitQuery.filter Library.readsNothing (clickHouseColumns none)).rest,
      rest.OnlyNames (· ≠ some "message") :=
  ⟨rfl, rfl, (@filter_splits splitEnv splitTree splitQuery rfl).2.2.1 none⟩

end Reads

end SolidTrace.LogQuery
