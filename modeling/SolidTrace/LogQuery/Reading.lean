import SolidTrace.LogQuery.Write

/-!
# Conditions as the documentation reads them

A condition is true or false of every row. A test of a missing value is false and its negation true,
and values of different types are never equal. What an equality says of two missing values is a
parameter: the documentation has it false, and a comparison written as SQL leaves it undecided.
Values are what ClickHouse computes from the values of their operands.
-/

namespace SolidTrace.LogQuery

/-- The values of a row's Fields and columns, `none` for one it lacks. -/
structure FieldValues where
  column : String → Option Value
  builtIn : String → Option Value
  attributeOf : AttributeType → String → Option Value

/-- What an expression is for a row: its value, the parts of a dynamic value, the JSON text a path
reaches into, and, as a condition, whether it holds. -/
structure Reading where
  value : Option Value
  part : AttributeType → Option Value
  json : Option Value
  verdict : Option Bool

namespace Reading

/-- The part of a type of a dynamic value. -/
def partOf (v : Option Value) (t : AttributeType) : Option Value := v.bind (elementOf t)

/-- A value, which as a condition holds if it is true. -/
def ofValue (v : Option Value) : Reading where
  value := v
  part := partOf v
  json := partOf v .json
  verdict := some (decide (truth v = some true))

/-- A dynamic value made of its parts. -/
def ofParts (part : AttributeType → Option Value) (json : Option Value) : Reading :=
  { ofValue (tupleOf (dynamicParts.map part)) with part, json }

/-- A condition, whose value is true or false. -/
def ofVerdict (t : Option Bool) : Reading :=
  { ofValue (some (.bool (t = some true))) with verdict := t }

/-- A row's reading as constants of SQL. -/
def written (r : Reading) : Written where
  value := .value r.value
  partsOf t := .value (r.part t)
  jsonText := .value r.json
  condition _ := .panic

end Reading

section Verdicts

/-- What an equality of two missing values is taken to say. -/
abbrev BothMissing := CompareOp → Option Bool

/-- Two missing values are not equal. -/
def documented : BothMissing := fun op => some (op == .ne)

/-- Nothing is said of two missing values. -/
def undecided : BothMissing := fun _ => none

/-- Whether two values that are there are in an order. -/
def CompareOp.ofValues : CompareOp → Value → Value → Bool
  | .eq, x, y => x = y
  | .ne, x, y => x ≠ y
  | .lt, x, y => x < y
  | .le, x, y => x ≤ y
  | .gt, x, y => x > y
  | .ge, x, y => x ≥ y

/-- What a comparison of values of two types says. -/
def compareVerdict (both : BothMissing) (op : CompareOp) (tx ty : ValueType) :
    Option Value → Option Value → Option Bool
  | x, y =>
    if op.isEquality && tx != ty then some (op == .ne)
    else
      match x, y with
      | some x, some y => some (op.ofValues x y)
      | none, none => if op.isEquality then both op else some false
      -- Of two values, one missing, only != is true.
      | _, _ => some (op == .ne)

/-- Whether a text is missing or empty. -/
def missingText (v : Option Value) : Bool := v.isNone || v == some (.string "")

/-- Whether a value of a type is missing or an empty string. -/
def isEmptyVerdict (t : ValueType) (r : Reading) : Bool :=
  match t with
  | .string => missingText r.value
  | .dynamic => missingText (r.part .string) && dynamicParts.tail.all fun t => (r.part t).isNone
  | _ => r.value.isNone

end Verdicts

section Read

variable (ch : ClickHouse) (lib : Library) (both : BothMissing) (row : FieldValues)

/-- What an expression of constants evaluates to. -/
def constant (x : Sql) : Option Value := x.eval ch [] fun _ => none

/-- Whether a text matches. A missing text matches nothing. -/
def textVerdict (op : MatchOp) (x : Option Value) (pattern : String) (caseSensitive : Bool) : Bool :=
  match x with
  | none => false
  | some v =>
    truth (constant ch (writeTextMatch op (.value (some v)) pattern caseSensitive)) = some true

mutual

/-- What an expression is for a row. -/
def readExpr : Expr → Reading
  | .fieldRef name builtIn t =>
    let value := if builtIn then row.builtIn name
      else match t.attributeType with
        | some a => row.attributeOf a name
        | none => tupleOf (dynamicParts.map (row.attributeOf · name))
    { Reading.ofValue value with
      part := (row.attributeOf · name)
      json := row.attributeOf .json name }
  | .attributeText name =>
    .ofValue (constant ch (writeText fun t => .value (row.attributeOf t name)))
  | .jsonValueText x => .ofValue (constant ch (writeText (readExpr x).written.partsOf))
  | .columnRef name _ _ => .ofValue (row.column name)
  | .partOf x t => .ofValue (t.attributeType.bind (readExpr x).part)
  | .literal l => .ofValue (constant ch (writeLiteral l))
  | .compare x op y =>
    .ofVerdict (compareVerdict both op x.typ y.typ (readExpr x).value (readExpr y).value)
  | .textMatch op x pattern caseSensitive =>
    .ofVerdict (some (textVerdict ch op (readExpr x).value pattern caseSensitive))
  | .isEmpty x => .ofVerdict (some (isEmptyVerdict x.typ (readExpr x)))
  | .always => .ofVerdict (some true)
  | .and x y => .ofVerdict (Kleene.and (readExpr x).verdict (readExpr y).verdict)
  | .or x y => .ofVerdict (Kleene.or (readExpr x).verdict (readExpr y).verdict)
  | .not x => .ofVerdict (Kleene.not (readExpr x).verdict)
  | .arith op x y _ =>
    .ofValue (constant ch (.fn op.fn [(readExpr x).written.value, (readExpr y).written.value]))
  | .negative x => .ofValue (constant ch (.fn .negate [(readExpr x).written.value]))
  | .call fn args _ =>
    .ofValue (constant ch (writeCall lib fn (args.zip ((readAll args).map Reading.written))))
  | .parsedJSON x =>
    .ofParts (fun t => constant ch (parsedParts (readExpr x).written.value t)) (readExpr x).value
  | .member x path =>
    let v := constant ch (writeMember (readExpr x).written.jsonText path)
    .ofParts (fun t => constant ch (jsonParts (.value v) (.value v) t)) v
  -- A row has no aggregate.
  | .aggregate _ _ _ _ => .ofValue none

def readAll : List Expr → List Reading
  | [] => []
  | x :: rest => readExpr x :: readAll rest

end

/-- Whether a condition holds of a row, if that is decided. -/
def verdict (p : Expr) : Option Bool := (readExpr ch lib both row p).verdict

/-- Whether a condition holds of a row as it is documented. -/
def conditionHolds (p : Expr) : Prop := verdict ch lib documented row p = some true

end Read

mutual

/-- Whether an expression can be read from a row, and its conditions are conditions: it has no
aggregate and no filter set to All, and no number or time of it is called a bool. -/
@[simp]
def Expr.ofRow : Expr → Bool
  | .fieldRef _ builtIn t => !(builtIn && t == .bool)
  | .attributeText _ => true
  | .jsonValueText x => x.ofRow
  | .columnRef _ _ _ => true
  | .partOf x _ => x.ofRow
  | .literal _ => true
  | .compare x _ y => x.ofRow && y.ofRow
  | .textMatch _ x _ _ => x.ofRow
  | .isEmpty x => x.ofRow
  | .always => false
  | .and x y => x.ofRow && y.ofRow && x.typ == .bool && y.typ == .bool
  | .or x y => x.ofRow && y.ofRow && x.typ == .bool && y.typ == .bool
  | .not x => x.ofRow && x.typ == .bool
  | .arith _ x y t => x.ofRow && y.ofRow && t != .bool
  | .negative x => x.ofRow && x.typ != .bool
  | .call _ args t => allOfRow args && t != .bool
  | .parsedJSON x => x.ofRow
  | .member x _ => x.ofRow
  | .aggregate _ _ _ _ => false

@[simp]
def allOfRow : List Expr → Bool
  | [] => true
  | x :: rest => x.ofRow && allOfRow rest

end

mutual

/-- The columns an expression reads as bools. -/
def Expr.boolColumns : Expr → List String
  | .columnRef name t _ => if t = .bool then [name] else []
  | .jsonValueText x => x.boolColumns
  | .partOf x _ => x.boolColumns
  | .compare x _ y => x.boolColumns ++ y.boolColumns
  | .textMatch _ x _ _ => x.boolColumns
  | .isEmpty x => x.boolColumns
  | .and x y => x.boolColumns ++ y.boolColumns
  | .or x y => x.boolColumns ++ y.boolColumns
  | .not x => x.boolColumns
  | .arith _ x y _ => x.boolColumns ++ y.boolColumns
  | .negative x => x.boolColumns
  | .call _ args _ => boolColumnsOf args
  | .parsedJSON x => x.boolColumns
  | .member x _ => x.boolColumns
  | .aggregate _ (some x) _ _ => x.boolColumns
  | .aggregate _ none _ _ => []
  | .fieldRef _ _ _ => []
  | .attributeText _ => []
  | .literal _ => []
  | .always => []

def boolColumnsOf : List Expr → List String
  | [] => []
  | x :: rest => x.boolColumns ++ boolColumnsOf rest

end

end SolidTrace.LogQuery
