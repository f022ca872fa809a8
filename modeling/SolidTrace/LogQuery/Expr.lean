import Mathlib.Data.Rat.Defs
import SolidTrace.LogQuery.Syntax

/-!
# Compiled expressions and stages

A compiled Query's typed expressions, its stages, and the Query they make. Numbers are exact.
Times and timespans are in nanoseconds, times since 1970.
-/

namespace SolidTrace.LogQuery

/-- The type of a compiled expression. `any`, as the type asked of one, asks for none. `dynamic` is
a value whose type may differ from row to row. -/
inductive ValueType where
  | any
  | string
  | number
  | bool
  | time
  | timespan
  | dynamic
deriving DecidableEq, Repr

def ValueType.text : ValueType → String
  | .string => "string"
  | .number => "number"
  | .bool => "bool"
  | .time => "datetime"
  | .timespan => "timespan"
  | .dynamic => "dynamic"
  | .any => "any"

/-- The type of an Attribute's value. -/
inductive AttributeType where
  | string
  | number
  | bool
  | json
deriving DecidableEq, Repr

def AttributeType.text : AttributeType → String
  | .string => "string"
  | .number => "number"
  | .bool => "bool"
  | .json => "json"

/-- Types have texts of their own. -/
theorem AttributeType.text_injective : Function.Injective AttributeType.text := by
  intro a b h
  cases a <;> cases b <;> first | rfl | exact absurd h (by decide)

/-- The type of Attribute a value of a type is read from. -/
def ValueType.attributeType : ValueType → Option AttributeType
  | .string => some .string
  | .number => some .number
  | .bool => some .bool
  | _ => none

/-- The types an Attribute read without a type is made of, in the order of a dynamic value's
tuple. -/
def dynamicParts : List AttributeType := [.string, .number, .bool, .json]

/-- A value written in a Query, or worked out from one. -/
inductive Literal where
  | string (s : String)
  | number (n : ℚ)
  | bool (b : Bool)
  | dateTime (t : ℤ)
  | timespan (d : ℤ)
deriving DecidableEq

namespace Literal

def valueType : Literal → ValueType
  | .string _ => .string
  | .number _ => .number
  | .bool _ => .bool
  | .dateTime _ => .time
  | .timespan _ => .timespan

/-- The number of a literal, 0 if it is not one. -/
def numberOf : Literal → ℚ
  | .number n => n
  | _ => 0

/-- The timespan of a literal, 0 if it is not one. -/
def timespanOf : Literal → ℤ
  | .timespan d => d
  | _ => 0

end Literal

inductive CompareOp where
  | eq | ne | lt | le | gt | ge
deriving DecidableEq, Repr

inductive MatchOp where
  | contains
  | startsWith
  | regex
  | equals
deriving DecidableEq, Repr

inductive ArithOp where
  | plus | minus | star | slash | mod
deriving DecidableEq, Repr

def ArithOp.text : ArithOp → String
  | .plus => "+"
  | .minus => "-"
  | .star => "*"
  | .slash => "/"
  | .mod => "%"

inductive ScalarFunction where
  | tostring | tolower | toupper | strlen | toint | tolong | todouble | toreal | bin | floor
  | extract | substring | round | arrayLength
deriving DecidableEq, Repr

inductive AggregateFunction where
  | count | countif | dcount | sum | avg | min | max | percentile | rate | peakRate
deriving DecidableEq, Repr

def AggregateFunction.text : AggregateFunction → String
  | .count => "count"
  | .countif => "countif"
  | .dcount => "dcount"
  | .sum => "sum"
  | .avg => "avg"
  | .min => "min"
  | .max => "max"
  | .percentile => "percentile"
  | .rate => "rate"
  | .peakRate => "peak_rate"

/-- One step of a path into a dynamic value: a member's name, or an element's index. -/
inductive PathStep where
  | key (name : String)
  | element (index : ℤ)
deriving DecidableEq, Repr

/-- A compiled, typed expression. -/
inductive Expr where
  /-- A built-in field, or an Attribute read as type `t`. -/
  | fieldRef (name : String) (builtIn : Bool) (t : ValueType)
  /-- An Attribute read as text by contains: its string, or else its JSON text. -/
  | attributeText (name : String)
  /-- A value parse_json or a path gives, read as text by contains. -/
  | jsonValueText (x : Expr)
  /-- A column of a table, or one extend added. `message` is set when it holds the Log's message as
  it is. -/
  | columnRef (name : String) (t : ValueType) (message : Bool)
  /-- The part of a dynamic value holding values of type `t`. -/
  | partOf (x : Expr) (t : ValueType)
  | literal (l : Literal)
  | compare (x : Expr) (op : CompareOp) (y : Expr)
  | textMatch (op : MatchOp) (x : Expr) (pattern : String) (caseSensitive : Bool)
  | isEmpty (x : Expr)
  /-- True for every row: a comparison with a Dashboard filter set to All. -/
  | always
  | and (x y : Expr)
  | or (x y : Expr)
  | not (x : Expr)
  | arith (op : ArithOp) (x y : Expr) (t : ValueType)
  | negative (x : Expr)
  | call (fn : ScalarFunction) (args : List Expr) (t : ValueType)
  | parsedJSON (x : Expr)
  | member (x : Expr) (path : List PathStep)
  /-- One of summarize's functions. `percent` is percentile's second argument. -/
  | aggregate (fn : AggregateFunction) (x : Option Expr) (percent : ℚ) (t : ValueType)

namespace Expr

def typ : Expr → ValueType
  | .fieldRef _ _ t => t
  | .attributeText _ => .string
  | .jsonValueText _ => .string
  | .columnRef _ t _ => t
  | .partOf _ t => t
  | .literal l => l.valueType
  | .compare _ _ _ => .bool
  | .textMatch _ _ _ _ => .bool
  | .isEmpty _ => .bool
  | .always => .bool
  | .and _ _ => .bool
  | .or _ _ => .bool
  | .not _ => .bool
  | .arith _ _ _ t => t
  | .negative x => x.typ
  | .call _ _ t => t
  | .parsedJSON _ => .dynamic
  | .member _ _ => .dynamic
  | .aggregate _ _ _ t => t

def isAlways : Expr → Bool
  | .always => true
  | _ => false

/-- Whether an expression is a Log's message as it is. -/
def isMessage : Expr → Bool
  | .fieldRef name builtIn _ => builtIn && name == "message"
  | .columnRef _ _ message => message
  | _ => false

end Expr

/-- A column a stage makes. -/
structure NamedValue where
  name : String
  x : Expr
  span : Span

/-- One key of a sort. -/
structure SortKey where
  x : Expr
  asc : Bool
  nullsFirst : Bool

/-- A compiled stage. -/
inductive Stage where
  | whereStage (predicate : Expr)
  | searchStage (terms : List String)
  | projectStage (columns : List NamedValue)
  | extendStage (columns : List NamedValue)
  | summarizeStage (columnsBy aggregates : List NamedValue)
  | sortStage (keys : List SortKey)
  | takeStage (n : ℕ)
  | topStage (n : ℕ) (key : SortKey)
  | countStage
  | distinctStage (columns : List NamedValue)

/-- An Attribute of one type. -/
structure AttrKey where
  t : AttributeType
  key : String
deriving DecidableEq, Repr

/-- A column of the rows at a stage. -/
structure Column where
  name : String
  t : ValueType
  message : Bool
deriving DecidableEq, Repr

/-- What names mean at a stage. `logs` is set while the rows are Logs: a name that is no column is
then a built-in field or an Attribute. -/
structure Scope where
  logs : Bool
  columns : List Column
deriving DecidableEq, Repr

namespace Scope

def logScope : Scope := ⟨true, []⟩

def lookup (s : Scope) (name : String) : Option Column := s.columns.find? (·.name == name)

def names (s : Scope) : List String := s.columns.map Column.name

end Scope

/-- What a column of a table tells a chart: the aggregate it is, or the size of the time bins it
holds, 0 for none. -/
structure Hint where
  agg : Option AggregateFunction
  bin : ℤ
deriving DecidableEq, Repr

/-- How to chart a table. -/
structure Shape where
  hints : String → Option Hint
  fillGaps : Bool

/-- The hint of a column, empty if it has none. -/
def Shape.hint (s : Shape) (name : String) : Hint := (s.hints name).getD ⟨none, 0⟩

/-- The types of the built-in fields every Log has. -/
def builtInFields : String → Option ValueType
  | "time" => some .time
  | "level" => some .string
  | "message" => some .string
  | "service" => some .string
  | "environment" => some .string
  | "trace_id" => some .string
  | "span_id" => some .string
  | _ => none

/-- The built-in fields, in the order of a table of Logs. -/
def builtInOrder : List String :=
  ["time", "level", "message", "service", "environment", "trace_id", "span_id"]

/-- Other names for built-in fields. -/
def fieldAliases : String → Option String
  | "_time" => some "time"
  | _ => none

/-- A compiled Query. -/
structure Query where
  /-- Its leading where and search stages. -/
  head : List Stage
  /-- Every stage after them. -/
  tail : List Stage
  fromTime : ℤ
  toTime : ℤ
  parameters : List String
  /-- Whether it returns a table, rather than Log rows. -/
  table : Bool
  /-- How many Log rows it returns at most, if it says. -/
  take : Option ℕ
  /-- The Attributes the tail reads from each Log. -/
  reads : List AttrKey
  /-- The table's columns, over the tail's last stage. -/
  output : List NamedValue
  shape : Shape

end SolidTrace.LogQuery
