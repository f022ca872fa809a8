import SolidTrace.LogQuery.Sql

/-!
# SELECT statements

The statements a Query's table is written as, and the rows they may give. SQL keeps no order of rows
but what ORDER BY asks for, and leaves ties open, so a statement gives one of several results.
-/

namespace SolidTrace.LogQuery

/-- One term of an ORDER BY. -/
structure OrderTerm where
  x : Sql
  asc : Bool
  nullsFirst : Bool

/-- A column of a select list. -/
inductive Item where
  | value (x : Sql)
  /-- `row_number() OVER (ORDER BY …)`. -/
  | rowNumber (order : List OrderTerm)
  /-- `count() OVER (PARTITION BY …)`. -/
  | countOver (partition : List Sql)

/-- What a statement's rows are ordered by: terms read from the rows it reads, or all its columns. -/
inductive Order where
  | terms (order : List OrderTerm)
  | all

/-- A SELECT of a relation's rows. -/
structure Select where
  /-- `*` without the columns of `EXCEPT`, if it is in the select list. -/
  star : Option (List String)
  /-- The columns of the select list besides `*`, each with its name. -/
  items : List (Item × String)
  distinct : Bool
  source : String
  filter : Option Sql
  /-- `GROUP BY 1, …, n`. Aggregates and no GROUP BY, which make one row of all, are `some 0`. -/
  group : Option ℕ
  order : Order
  limit : Option ℕ

/-- A statement with a name that others read its rows by. It may read those of a subquery, `taken`. -/
structure Cte where
  name : String
  inner : Option Select
  outer : Select

namespace Select

/-- `SELECT * FROM source`. -/
def all (source : String) : Select where
  star := some []
  items := []
  distinct := false
  source
  filter := none
  group := none
  order := .terms []
  limit := none

/-- `SELECT … FROM source`. -/
def list (items : List (Item × String)) (source : String) : Select :=
  { all source with star := none, items }

end Select

section Rows

variable (ch : ClickHouse)

/-- Whether a value comes before another by a term, or after it, or neither. -/
def OrderTerm.compare (term : OrderTerm) (a b : Sql.Row) : Ordering :=
  match term.x.eval ch [] a, term.x.eval ch [] b with
  | some v, some w => if term.asc then compareOfLessAndEq v w else compareOfLessAndEq w v
  | none, none => .eq
  | none, some _ => if term.nullsFirst then .lt else .gt
  | some _, none => if term.nullsFirst then .gt else .lt

/-- Whether a row may come before another in an order. -/
def mayPrecede : List OrderTerm → Sql.Row → Sql.Row → Bool
  | [], _, _ => true
  | term :: rest, a, b =>
    match term.compare ch a b with
    | .lt => true
    | .eq => mayPrecede rest a b
    | .gt => false

/-- How many of some rows have a row's values. -/
def rowsAlike (partition : List Sql) (rows : List Sql.Row) (row : Sql.Row) : ℕ :=
  rows.countP fun r => partition.map (Sql.eval ch [] r) = partition.map (Sql.eval ch [] row)

/-- The value of a select list's column for the `i`-th of some rows, and for the group that its
aggregates read. -/
def Item.eval (rows group : List Sql.Row) (i : ℕ) (row : Sql.Row) : Item → Option Value
  | .value x => x.eval ch group row
  | .rowNumber _ => some (.number (i + 1))
  | .countOver partition => some (.number (rowsAlike ch partition rows row))

/-- The value of a select list's columns by name: of two of a name, the last. -/
def setItems (value : Item → Option Value) (items : List (Item × String)) (row : Sql.Row) : Sql.Row :=
  items.foldl (fun row item name => if name = item.2 then value item.1 else row name) row

/-- The columns of a row that `*` keeps. -/
def starRow (star : Option (List String)) (row : Sql.Row) : Sql.Row := fun name =>
  match star with
  | some except => if name ∈ except then none else row name
  | none => none

/-- A row without any value. -/
def noRow : Sql.Row := fun _ => none

namespace Select

variable (s : Select)

/-- The order that the rows are numbered in. -/
def numbering : List OrderTerm :=
  (s.items.findSome? fun
    | (.rowNumber order, _) => some order
    | _ => none).getD []

/-- The row made of the `i`-th of some rows. -/
def rowOf (rows group : List Sql.Row) (i : ℕ) (row : Sql.Row) : Sql.Row :=
  setItems (Item.eval ch rows group i row) s.items (starRow s.star row)

/-- The values that a row is grouped by. -/
def groupKey (n : ℕ) (row : Sql.Row) : List (Option Value) :=
  (s.items.take n).map fun item => item.1.eval ch [] [] 0 row

/-- The groups that GROUP BY makes of some rows. Without keys there is one, of all of them. -/
def groups (n : ℕ) (rows : List Sql.Row) : List (List Sql.Row) :=
  if n = 0 then [rows]
  else (rows.map (s.groupKey ch n)).dedup.map fun key => rows.filter fun row => s.groupKey ch n row = key

/-- The rows a statement makes of rows that pass its filter, each with the row it is made of. -/
def made (rows : List Sql.Row) : List (Sql.Row × Sql.Row) :=
  match s.group with
  | none => rows.mapIdx fun i row => (row, s.rowOf ch rows [] i row)
  | some n => (s.groups ch n rows).map fun group =>
    (group.head?.getD noRow, s.rowOf ch rows group 0 (group.head?.getD noRow))

/-- Whether a row passes a statement's filter. -/
def passes (row : Sql.Row) : Bool := s.filter.all fun x => truth (x.eval ch [] row) = some true

/-- The values of a statement's columns, for DISTINCT and ORDER BY ALL. -/
def valuesOf (row : Sql.Row) : List (Option Value) := s.items.map fun item => row item.2

/-- The order of all columns, NULLs last. -/
def valuesPrecede : List (Option Value) → List (Option Value) → Bool
  | some v :: vs, some w :: ws => decide (v < w) || (decide (v = w) && valuesPrecede vs ws)
  | none :: vs, none :: ws => valuesPrecede vs ws
  | some _ :: _, none :: _ => true
  | none :: _, some _ :: _ => false
  | _, _ => true

/-- Whether a made row may come before another. -/
def precedes (a b : Sql.Row × Sql.Row) : Bool :=
  match s.order with
  | .terms order => mayPrecede ch order a.1 b.1
  | .all => valuesPrecede (s.valuesOf a.2) (s.valuesOf b.2)

/-- Of the rows made, DISTINCT keeps one of those alike. -/
def Distinct (rows kept : List (Sql.Row × Sql.Row)) : Prop :=
  if s.distinct then
    kept.Sublist rows ∧ (kept.map fun row => s.valuesOf row.2).Nodup ∧
      ∀ row ∈ rows, ∃ row' ∈ kept, s.valuesOf row'.2 = s.valuesOf row.2
  else kept = rows

/-- The rows a statement may give of the rows it reads. -/
def Gives (rows result : List Sql.Row) : Prop :=
  ∃ arranged kept sorted : List _,
    arranged.Perm (rows.filter (s.passes ch)) ∧
    arranged.Pairwise (fun a b => mayPrecede ch s.numbering a b = true) ∧
    s.Distinct (s.made ch arranged) kept ∧
    sorted.Perm kept ∧ sorted.Pairwise (fun a b => s.precedes ch a b = true) ∧
    result = (match s.limit with | some n => sorted.take n | none => sorted).map Prod.snd

end Select

/-- The rows a named statement may give. -/
def Cte.Gives (cte : Cte) (rows result : List Sql.Row) : Prop :=
  match cte.inner with
  | some inner => ∃ taken, inner.Gives ch rows taken ∧ cte.outer.Gives ch taken result
  | none => cte.outer.Gives ch rows result

/-- The rows that statements, each of which reads the one before, may give. -/
def CtesGive : List Cte → List Sql.Row → List Sql.Row → Prop
  | [], rows, result => result = rows
  | cte :: rest, rows, result => ∃ next, cte.Gives ch rows next ∧ CtesGive rest next result

end Rows

end SolidTrace.LogQuery
