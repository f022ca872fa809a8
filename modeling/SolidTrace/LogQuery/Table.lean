import SolidTrace.LogQuery.Select
import SolidTrace.LogQuery.Stages
import SolidTrace.LogQuery.Write

/-!
# A Query's table as SQL

A Query's tail as a chain of statements, one per stage, each reading the one before, and the statement
that reads the table off the last. A Query is written so against the Logs that pass its head, and, for
a person to read, against SQL mode's logs.
-/

namespace SolidTrace.LogQuery

section Fields

/-- The column that holds an Attribute of a type in the Logs a tail reads. -/
def readColumn (t : AttributeType) (key : String) : String := "@" ++ t.text ++ ":" ++ key

/-- The columns of a relation of a tail's chain. -/
def tailFields (rel : String) : Fields where
  column name := .column (some rel) name
  builtIn name := .column (some rel) name
  attributeOf t key := .column (some rel) (readColumn t key)
  stringColumn _ := none

/-- The select list a source of Logs is read with for the Query's tail: id, the built-in fields, and
each Attribute the tail reads. -/
def Query.select (q : Query) (cols : Columns) : List (Item × String) :=
  (.value (cols.builtIn "id"), "id") ::
    (builtInOrder.map fun name => (.value (cols.builtIn name), name)) ++
    q.reads.map fun k => (.value (cols.attributeOf k.t k.key), readColumn k.t k.key)

end Fields

section Chain

/-- Numbers the rows of a sorted relation in their order. -/
def orderColumn : String := "#order"

def sourceRelation : String := "matched"

/-- A subquery's rows, which a stage numbers. -/
def takenRelation : String := "taken"

/-- A Query written as a chain of statements, each reading the one before. `prev` is what the next
stage reads. `ordered` is set when its rows are numbered in their order, and `isLogs` while they are
Logs, newest first unless ordered. `has` are its columns so far, but for the order. -/
structure Chain where
  ctes : List Cte
  prev : String
  ordered : Bool
  isLogs : Bool
  has : List String

/-- The chain before any stage, over Logs. -/
def Chain.logs (source : String) : Chain := ⟨[], source, false, true, "id" :: builtInOrder⟩

/-- Add a statement, which reads what the last one gives. -/
def Chain.add (c : Chain) (outer : Select) (inner : Option Select) : Chain :=
  let name := "stage" ++ toString (c.ctes.length + 1)
  { c with ctes := c.ctes ++ [⟨name, inner, outer⟩], prev := name }

/-- The order of Logs, newest first: by time, then by id in the order of its bytes. -/
def newestFirstOrder (f : Fields) : List OrderTerm :=
  [⟨f.builtIn "time", false, false⟩, ⟨.fn .toUInt128 [f.builtIn "id"], false, false⟩]

/-- What the chain's last relation is ordered by. -/
def Chain.order (c : Chain) (f : Fields) : Order :=
  if c.ordered then .terms [⟨f.column orderColumn, true, false⟩]
  else if c.isLogs then .terms (newestFirstOrder f)
  else .all

end Chain

section Tail

variable (lib : Library) (on : String → Fields)

def selectList (columns : List NamedValue) (f : Fields) : List (Item × String) :=
  columns.map fun col => (.value (writeValue lib f col.x), col.name)

/-- `*`, without the numbers of an order that no longer counts. -/
def exceptOrder (ordered : Bool) : Option (List String) := some (if ordered then [orderColumn] else [])

/-- Sort keys. A value of no fixed type sorts numbers first, then strings, then bools, then JSON. -/
def orderBy (keys : List SortKey) (f : Fields) : List OrderTerm :=
  keys.flatMap fun k =>
    if k.x.typ != .dynamic then [⟨writeValue lib f k.x, k.asc, k.nullsFirst⟩]
    else [AttributeType.number, .string, .bool, .json].map fun t =>
      ⟨(write lib f k.x).partsOf t, k.asc, k.nullsFirst⟩

/-- The select list of a project, and the order of the rows it reads. -/
def keepOrder (ordered : Bool) (list : List (Item × String)) (f : Fields) : List (Item × String) :=
  if ordered then list ++ [(.value (f.column orderColumn), orderColumn)] else list

/-- Whether any of the columns has an aggregate of a function. -/
def usesAggregate (columns : List NamedValue) (fn : AggregateFunction) : Bool :=
  columns.any fun col => hasAggregate (some fn) col.x

/-- The seconds of a row's bin that lie in the Query's range, or those of the range. -/
def binSeconds (q : Query) (before : List Stage) (columnsBy : List NamedValue) (f : Fields) : Sql :=
  match rateBin before columnsBy with
  | none => writeLiteral (.number ((q.toTime - q.fromTime : ℤ) / 1000000000))
  | some (bin, size) =>
    let start := writeValue lib f bin.x
    let stop : Sql := .fn .least [.fn .plus [start, writeLiteral (.timespan size)],
      writeLiteral (.dateTime q.toTime)]
    let begin : Sql := .fn .greatest [start, writeLiteral (.dateTime q.fromTime)]
    .fn .divide [.fn .minus [.fn .toUnixTimestamp64Micro [stop], .fn .toUnixTimestamp64Micro [begin]],
      .number 1000000]

/-- The values that a row's second is counted by. -/
def secondPartition (columnsBy : List NamedValue) (f : Fields) : List Sql :=
  (columnsBy.map fun col => writeValue lib f col.x) ++
    [writeValue lib f (.call .bin [.fieldRef "time" true .time, .literal (.timespan 1000000000)] .time)]

/-- The columns a summarize adds to the rows it reads for its rates. -/
def rateColumns (q : Query) (before : List Stage) (columnsBy aggregates : List NamedValue)
    (f : Fields) : List (Item × String) :=
  (if usesAggregate aggregates .rate then
    [(.value (binSeconds lib q before columnsBy f), binSecondsColumn)] else []) ++
  (if usesAggregate aggregates .peakRate then
    [(.countOver (secondPartition lib columnsBy f), secondCountColumn)] else [])

/-- The chain with a stage more, after the stages `before`, the last of them first. -/
def writeStage (q : Query) (before : List Stage) (c : Chain) (s : Stage) : Chain :=
  let f := on c.prev
  let taken := on takenRelation
  match s with
  | .whereStage p =>
    c.add { Select.all c.prev with filter := some (writeCondition lib f p false) } none
  | .projectStage columns =>
    { c.add (.list (keepOrder c.ordered (selectList lib columns f) f) c.prev) none with
      has := columns.map NamedValue.name, isLogs := false }
  | .extendStage columns =>
    let names := columns.map NamedValue.name
    { c.add { Select.all c.prev with
        star := some (names.filter c.has.contains), items := selectList lib columns f } none with
      has := c.has ++ names }
  | .summarizeStage columnsBy aggregates =>
    let rates := rateColumns lib q before columnsBy aggregates f
    let c := if rates.isEmpty then c else c.add { Select.all c.prev with items := rates } none
    let all := columnsBy ++ aggregates
    { c.add { Select.list (selectList lib all (on c.prev)) c.prev with
        group := some columnsBy.length } none with
      has := all.map NamedValue.name, ordered := false, isLogs := false }
  | .sortStage keys =>
    { c.add { Select.all c.prev with
        star := exceptOrder c.ordered, items := [(.rowNumber (orderBy lib keys f), orderColumn)] } none with
      ordered := true }
  | .takeStage n =>
    if c.ordered then
      c.add { Select.all c.prev with
        order := .terms [⟨f.column orderColumn, true, false⟩], limit := some n } none
    else if c.isLogs then
      { c.add { Select.all takenRelation with items := [(.rowNumber (newestFirstOrder taken), orderColumn)] }
          (some { Select.all c.prev with order := .terms (newestFirstOrder f), limit := some n }) with
        ordered := true }
    else c.add { Select.all c.prev with limit := some n } none
  | .topStage n key =>
    { c.add { Select.all takenRelation with items := [(.rowNumber (orderBy lib [key] taken), orderColumn)] }
        (some { Select.all c.prev with
          star := exceptOrder c.ordered, order := .terms (orderBy lib [key] f), limit := some n }) with
      ordered := true }
  | .countStage =>
    { c.add { Select.list [(.value (.aggregate .count []), "Count")] c.prev with group := some 0 } none with
      has := ["Count"], ordered := false, isLogs := false }
  | .distinctStage columns =>
    { c.add { Select.list (selectList lib columns f) c.prev with distinct := true } none with
      has := columns.map NamedValue.name, ordered := false, isLogs := false }
  | .searchStage _ => c

/-- The chain with stages more. -/
def writeStages (q : Query) : List Stage → Chain → List Stage → Chain
  | _, c, [] => c
  | before, c, s :: rest => writeStages q (s :: before) (writeStage lib on q before c s) rest

/-- A Query's tail, added to a chain over Logs. -/
def Query.writeTail (q : Query) (c : Chain) : Chain := writeStages lib on q [] c q.tail

end Tail

section Statements

variable (lib : Library)

/-- A statement, and those with names that it reads. -/
structure Statement where
  ctes : List Cte
  final : Select

/-- The Query's tail over the Logs that pass its head, read with `Query.select`: its table's rows, at
most `limit` of them. -/
def Query.tableSQL (q : Query) (limit : ℕ) : Statement :=
  let c := q.writeTail lib tailFields (.logs sourceRelation)
  let last := tailFields c.prev
  { ctes := c.ctes
    final := { Select.list (selectList lib q.output last) c.prev with
      order := c.order last, limit := some limit } }

/-- The table that a Query's Readable SQL reads. -/
def readableLogs : String := "logs"

/-- A value of no fixed type as a Dynamic. -/
def dynamicSQLValue (part : AttributeType → Sql) : Sql :=
  .fn .multiIf ((dynamicParts.dropLast.flatMap fun t =>
    [.fn .isNotNull [part t], .fn .toDynamic [part t]]) ++ [.fn .toDynamic [part .json]])

/-- A column of a table that a person reads. -/
def readableColumn (f : Fields) (col : NamedValue) : Item × String :=
  let w := write lib f col.x
  (.value (if col.x.typ == .dynamic then dynamicSQLValue w.partsOf else w.value), col.name)

/-- The chain over the Logs that pass a condition, if there is one. -/
def readableChain (head : Option Sql) : Chain :=
  let c := Chain.logs readableLogs
  match head with
  | some condition => c.add { Select.all c.prev with filter := some condition } none
  | none => c

/-- The table at the end of a chain. A Dynamic can't be a sort key, so rows in no order of their own
are sorted by their values. -/
def readableTable (columns : List NamedValue) (c : Chain) (f : Fields) : Statement where
  ctes := c.ctes
  final := { Select.list (columns.map (readableColumn lib f)) c.prev with
    order := match c.order f with
      | .all => .terms (columns.map fun col => ⟨writeValue lib f col.x, true, false⟩)
      | order => order }

/-- The Query against SQL mode's logs, for a person to read and change. -/
def Query.readableSQL (q : Query) : Statement :=
  let on := fun rel => (clickHouseColumns (some rel)).toFields
  let head := q.where lib (clickHouseColumns none)
  if !q.table then
    { ctes := []
      final := { Select.all readableLogs with
        filter := head, order := .terms (newestFirstOrder (clickHouseColumns none).toFields)
        limit := q.take } }
  else
    let c := q.writeTail lib on (readableChain head)
    readableTable lib q.output c (on c.prev)

/-- The rows a statement may give of the rows of the relation that its first reads. -/
def Statement.Gives (ch : ClickHouse) (s : Statement) (rows result : List Sql.Row) : Prop :=
  ∃ last, CtesGive ch s.ctes rows last ∧ s.final.Gives ch last result

end Statements

end SolidTrace.LogQuery
