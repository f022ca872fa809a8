import SolidTrace.LogQuery.Compile
import SolidTrace.LogQuery.Sql

/-!
# Writing expressions as SQL

A compiled expression as ClickHouse's SQL. An expression is written as a value, as the parts of a
dynamic value, as the JSON text a path reaches into, or as a condition or its negation: all four are
made together, by recursion on the expression, from those of its operands.
-/

namespace SolidTrace.LogQuery

section Fields

/-- Where the rows being written against keep each Field and column. `stringColumn` is a column that
holds a string Attribute's value, or the empty string for a Log whose Attribute isn't a string. -/
structure Fields where
  column : String → Sql
  builtIn : String → Sql
  attributeOf : AttributeType → String → Sql
  stringColumn : String → Option Sql

/-- Where a source of Logs keeps each Field, and the text search reads besides message. -/
structure Columns extends Fields where
  searchText : Sql

def Sql.text (s : String) : Sql := .value (some (.string s))

def Sql.number (n : ℚ) : Sql := .value (some (.number n))

def Sql.bool (b : Bool) : Sql := .value (some (.bool b))

/-- `x AND y AND …`, true of no conditions. -/
def Sql.conjunction : List Sql → Sql
  | [] => .bool true
  | [x] => x
  | x :: rest => .fn .and [x, Sql.conjunction rest]

def Sql.disjunction : List Sql → Sql
  | [] => .bool false
  | [x] => x
  | x :: rest => .fn .or [x, Sql.disjunction rest]

/-- The JSON text of an array or object Attribute in a map, NULL for a Log without one. -/
def jsonAttribute (m : Sql) (key : String) : Sql :=
  .fn .cond [.fn .mapContains [m, .text key], .fn .mapElement [m, .text key], .value none]

/-- Where the logs table keeps each Field, or a relation of its rows. -/
def clickHouseColumns (table : Option String) : Columns where
  column name := .column table name
  builtIn name := .column table name
  attributeOf t key :=
    if t = .json then jsonAttribute (.column table "attrs_json") key
    else .fn (.subcolumn t) [.column table "attributes", .text key]
  stringColumn key := if key == "file" then some (.column table "file") else none
  searchText := .column table "search_text"

end Fields

section Written

/-- What an expression is written as: a value, the parts by type of a dynamic value, the JSON text
a path reaches into, and a condition, or its negation when asked for. -/
structure Written where
  value : Sql
  partsOf : AttributeType → Sql
  jsonText : Sql
  condition : Bool → Sql

/-- The parts of an Attribute read without a type, as one tuple. -/
def dynamicValue (parts : List Sql) : Sql := .fn .tuple parts

/-- A dynamic value from its parts by type. -/
def dynamicOf (part : AttributeType → Sql) : Sql := dynamicValue (dynamicParts.map part)

/-- The part of a dynamic value that holds values of type `t`. -/
def dynamicPart (v : Sql) (t : AttributeType) : Sql := .fn (.tupleElement t) [v]

/-- The part of a dynamic value that a type asks for. Only an Attribute's types have one. -/
def typedPart (part : AttributeType → Sql) (t : ValueType) : Sql :=
  match t.attributeType with
  | some a => part a
  | none => .panic

/-- A test that a dynamic value is missing: no part is set. -/
def dynamicMissing (v : Sql) : Sql :=
  .conjunction (dynamicParts.map fun t => .fn .isNull [dynamicPart v t])

/-- A negated test is true or false for every row. -/
def notTrue (test : Sql) : Sql := .fn .not [.fn .coalesce [test, .bool false]]

/-- A test, or its negation. -/
def testOf (test : Sql) (negate : Bool) : Sql := if negate then notTrue test else test

/-- A value of a type as a condition. -/
def valueCondition (t : ValueType) (v : Sql) (negate : Bool) : Sql :=
  if t ≠ .bool then .panic else testOf v negate

/-- What is written of an expression with a value of its own. -/
def Written.ofValue (t : ValueType) (v : Sql) : Written where
  value := v
  partsOf := dynamicPart v
  jsonText := dynamicPart v .json
  condition := valueCondition t v

/-- What is written of a dynamic value made of its parts. -/
def Written.ofParts (part : AttributeType → Sql) (json : Sql) : Written where
  value := dynamicOf part
  partsOf := part
  jsonText := json
  condition := valueCondition .dynamic (dynamicOf part)

/-- What is written of a test. ClickHouse's tests are UInt8s; a value is a Bool, never NULL. -/
def Written.ofTest (test : Bool → Sql) : Written :=
  let v : Sql := .fn .toBool [.fn .coalesce [test false, .bool false]]
  { value := v
    partsOf := dynamicPart v
    jsonText := dynamicPart v .json
    condition := test }

end Written

section Leaves

variable (f : Fields)

/-- A built-in field, or an Attribute, whose parts are its typed values. -/
def writeFieldRef (name : String) (builtIn : Bool) (t : ValueType) : Written :=
  let v := if builtIn then f.builtIn name
    else match t.attributeType with
      | some a => f.attributeOf a name
      | none => dynamicOf (f.attributeOf · name)
  { value := v
    partsOf := (f.attributeOf · name)
    jsonText := f.attributeOf .json name
    condition := valueCondition t v }

def writeLiteral : Literal → Sql
  | .number n => .number n
  | .bool b => .bool b
  -- Written to the microsecond.
  | .dateTime t => .value (some (.time (t / 1000)))
  | .timespan d => .value (some (.interval (d.tdiv 1000)))
  | .string s => .text s

/-- The text of a dynamic value: its string, or else its JSON text. -/
def writeText (part : AttributeType → Sql) : Sql := .fn .coalesce [part .string, part .json]

end Leaves

section Tests

variable (f : Fields)

def CompareOp.fn : CompareOp → Fn
  | .eq => .equals
  | .ne => .notEquals
  | .lt => .less
  | .le => .lessOrEquals
  | .gt => .greater
  | .ge => .greaterOrEquals

def CompareOp.isEquality : CompareOp → Bool
  | .eq => true
  | .ne => true
  | _ => false

/-- The column that holds a string Attribute compared with a string that isn't empty, and the
string, if there is one. A literal on the left is compared as if on the right. -/
def stringColumnCompare (x y : Expr) : Option (Sql × Sql) :=
  let sides := match x with
    | .literal _ => (y, x)
    | _ => (x, y)
  match sides with
  | (.fieldRef name false .string, .literal (.string s)) =>
    if s = "" then none else (f.stringColumn name).map fun column => (column, .text s)
  | _ => none

/-- `x op y`, or its negation. Values of different types are never equal. -/
def writeCompare (x : Expr) (op : CompareOp) (y : Expr) (wx wy : Written) (negate : Bool) : Sql :=
  if op.isEquality && x.typ != y.typ then .bool ((op == .ne) != negate)
  else
    match op.isEquality, stringColumnCompare f x y with
    | true, some (column, value) =>
      if (op == .eq) != negate then .fn .equals [column, value] else .fn .notEquals [column, value]
    | true, none =>
      -- NULL, for a missing value, keeps the row out.
      if (op == .eq) != negate then .fn .equals [wx.value, wy.value]
      else .fn .isDistinctFrom [wx.value, wy.value]
    | false, _ => testOf (.fn op.fn [wx.value, wy.value]) negate

/-- A test that a string is missing or empty. -/
def emptyText (v : Sql) : Sql := .fn .or [.fn .isNull [v], .fn .equals [v, .text ""]]

/-- A test that a value of a type is missing or an empty string. -/
def writeIsEmpty (t : ValueType) (w : Written) : Sql :=
  match t with
  | .string => emptyText w.value
  | .dynamic =>
    .conjunction (emptyText (w.partsOf .string) ::
      dynamicParts.tail.map fun t => .fn .isNull [w.partsOf t])
  | _ => .fn .isNull [w.value]

def isEmptyCondition (t : ValueType) (w : Written) (negate : Bool) : Sql :=
  if negate then .fn .not [writeIsEmpty t w] else writeIsEmpty t w

/-- Where a pattern starts in a text, ignoring case, from 1, or 0. An ASCII pattern takes the ASCII
form. -/
def caseInsensitivePosition (x : Sql) (pattern : String) : Sql :=
  if pattern.toList.any fun r => r.toNat ≥ 128 then
    .fn .positionCaseInsensitiveUTF8 [x, .text pattern]
  else .fn .positionCaseInsensitive [x, .text pattern]

/-- A text match. Where case doesn't count, both sides are lowercased. -/
def writeTextMatch (op : MatchOp) (x : Sql) (pattern : String) (caseSensitive : Bool) : Sql :=
  let term := Sql.text pattern
  let folded := fun v : Sql => if caseSensitive then v else .fn .lowerUTF8 [v]
  match op with
  | .regex => .fn .matches [x, term]
  | .contains =>
    if caseSensitive then .fn .greater [.fn .position [x, term], .number 0]
    else .fn .greater [caseInsensitivePosition x pattern, .number 0]
  | .startsWith => .fn .startsWith [folded x, folded term]
  | .equals => .fn .equals [folded x, folded term]

/-- `and`, or the `or` of a negation. -/
def andCondition (x y : Bool → Sql) (negate : Bool) : Sql :=
  .fn (if negate then .or else .and) [x negate, y negate]

def orCondition (x y : Bool → Sql) (negate : Bool) : Sql :=
  .fn (if negate then .and else .or) [x negate, y negate]

end Tests

section Json

/-- A test of the type of the value that JSON text holds. -/
def jsonIs (v : Sql) (t : String) : Sql := .fn .equals [.fn .jsonType [v], .text t]

def jsonIsIn (v : Sql) (types : List String) : Sql :=
  .fn .isIn (.fn .jsonType [v] :: types.map Sql.text)

/-- The parts by type of the value that `v`, JSON text, holds. `raw` is the JSON text of an array or
object. -/
def jsonParts (v raw : Sql) : AttributeType → Sql
  | .string => .fn .cond [jsonIs v "String", .fn .jsonExtractString [v], .value none]
  | .number =>
    .fn .cond [jsonIsIn v ["Int64", "UInt64", "Double"], .fn .jsonExtractFloat [v], .value none]
  | .bool => .fn .cond [jsonIs v "Bool", .fn .toBool [.fn .jsonExtractBool [v]], .value none]
  | .json => .fn .cond [jsonIsIn v ["Array", "Object"], raw, .value none]

/-- The parts of parse_json: those of the value its text holds, or the text where it isn't JSON. -/
def parsedParts (s : Sql) (t : AttributeType) : Sql :=
  let parts := jsonParts s (.fn .jsonExtractRaw [s])
  if t = .string then .fn .cond [.fn .isValidJSON [s], parts t, s] else parts t

/-- The arguments of a path, and the tests that what its indexes reach into are arrays. -/
def pathArgs : List Sql → List PathStep → List Sql × List Sql
  | args, [] => (args, [])
  | args, .key name :: rest => pathArgs (args ++ [.text name]) rest
  | args, .element index :: rest =>
    let array : Sql := .fn .equals [.fn .jsonType args, .text "Array"]
    -- ClickHouse counts elements from 1, and from the end from -1.
    let after := pathArgs (args ++ [.number (if index ≥ 0 then index + 1 else index : ℤ)]) rest
    (after.1, array :: after.2)

/-- The JSON text of the value at a path, or the empty string where there is none. -/
def writeMember (json : Sql) (path : List PathStep) : Sql :=
  let args := pathArgs [json] path
  let raw := Sql.fn .jsonExtractRaw args.1
  match args.2 with
  | [] => raw
  | arrays => .fn .cond [.conjunction arrays, raw, .text ""]

end Json

section Calls

def numberText (n : Sql) : Sql :=
  .fn .cond [.fn .and [.fn .equals [n, .fn .trunc [n]],
      .fn .less [.fn .abs [n], .number 1000000000000000]],
    .fn .toString [.fn .toInt64 [n]], .fn .toString [n]]

/-- A value of a type as a string: a number without a fraction has no decimal point. -/
def writeToString (t : ValueType) (w : Written) : Sql :=
  match t with
  | .string => w.value
  | .number => numberText w.value
  | .bool => .fn .cond [w.value, .text "true", .text "false"]
  | .time => .fn .formatDateTime [w.value, .text "%Y-%m-%dT%H:%i:%S.%fZ"]
  | .dynamic =>
    .fn .coalesce [w.partsOf .string, numberText (w.partsOf .number),
      .fn .toString [w.partsOf .bool], w.partsOf .json]
  | _ => .fn .toString [w.value]

/-- A value of a type as a number: a string is read as one, NULL if it isn't. -/
def writeToNumber (t : ValueType) (w : Written) : Sql :=
  match t with
  | .number => w.value
  | .string => .fn .toFloat64OrNull [w.value]
  | .bool => .fn .toFloat64 [w.value]
  | .dynamic =>
    .fn .coalesce [w.partsOf .number, .fn .toFloat64OrNull [w.partsOf .string],
      .fn .toFloat64 [w.partsOf .bool]]
  | _ => .fn .toFloat64OrNull [.fn .toString [w.value]]

/-- What a regex's group matched, NULL where it matched nothing or there is no such group. The regex
must compile. -/
def writeExtract (lib : Library) (regex : String) (group : ℚ) (source : Sql) : Sql :=
  if (lib.regexError regex).isSome then .panic
  else if group > lib.numSubexp regex then .value none
  else .fn .nullIf [.fn .regexpExtract [source, .text regex, .number (truncate group)], .text ""]

/-- The start of a substring, which ClickHouse counts from 1. -/
def substringFrom (s : Sql) (start : Expr) (wstart : Sql) : Sql :=
  let computed : Sql :=
    let at₀ : Sql := .fn .toInt64 [wstart]
    .fn .plus [.fn .cond [.fn .less [at₀, .number 0],
      .fn .greatest [.fn .plus [.fn .toInt64 [.fn .lengthUTF8 [s]], at₀], .number 0], at₀], .number 1]
  match start with
  | .literal l =>
    if 0 ≤ l.numberOf ∧ l.numberOf < 2 ^ 53 then .number (truncate l.numberOf + 1) else computed
  | _ => computed

def writeSubstring (s : Sql) (start : Expr) (wstart : Sql) (length : Option Sql) : Sql :=
  let start := substringFrom s start wstart
  match length with
  | none => .fn .substringUTF8 [s, start]
  | some length => .fn .substringUTF8 [s, start, .fn .greatest [.fn .toInt64 [length], .number 0]]

/-- A number rounded to some digits, halves away from zero. -/
def writeRound (x : Sql) (precision : Option Sql) : Sql :=
  let digits := match precision with
    | none => .number 0
    | some p => .fn .trunc [p]
  let scale : Sql := .fn .pow [.number 10, .fn .least [.fn .abs [digits], .number 308]]
  let scaled : Sql :=
    .fn .cond [.fn .less [digits, .number 0], .fn .divide [x, scale], .fn .multiply [x, scale]]
  let fraction : Sql := .fn .abs [.fn .minus [scaled, .fn .trunc [scaled]]]
  let rounded : Sql := .fn .plus [.fn .trunc [scaled],
    .fn .multiply [.fn .sign [scaled], .fn .greaterOrEquals [fraction, .number (1 / 2)]]]
  .fn .cond [.fn .greaterOrEquals [.fn .abs [scaled], .number 4503599627370496], x,
    .fn .cond [.fn .less [digits, .number 0], .fn .multiply [rounded, scale],
      .fn .divide [rounded, scale]]]

/-- A scalar function of arguments, each with what it is written as. -/
def writeCall (lib : Library) (fn : ScalarFunction) (args : List (Expr × Written)) : Sql :=
  match fn, args with
  | .tostring, [x] => writeToString x.1.typ x.2
  | .tolower, [x] => .fn .lowerUTF8 [x.2.value]
  | .toupper, [x] => .fn .upperUTF8 [x.2.value]
  | .strlen, [x] => .fn .toFloat64 [.fn .lengthUTF8 [x.2.value]]
  | .todouble, [x] => writeToNumber x.1.typ x.2
  | .toreal, [x] => writeToNumber x.1.typ x.2
  | .toint, [x] => .fn .trunc [writeToNumber x.1.typ x.2]
  | .tolong, [x] => .fn .trunc [writeToNumber x.1.typ x.2]
  | .bin, [x, size] => binned x size
  | .floor, [x, size] => binned x size
  | .extract, [(.literal (.string regex), _), (.literal (.number group), _), x] =>
    writeExtract lib regex group x.2.value
  | .substring, [s, start] => writeSubstring s.2.value start.1 start.2.value none
  | .substring, [s, start, length] =>
    writeSubstring s.2.value start.1 start.2.value (some length.2.value)
  | .round, [x] => writeRound x.2.value none
  | .round, [x, precision] => writeRound x.2.value (some precision.2.value)
  | .arrayLength, [x] =>
    .fn .cond [jsonIs x.2.jsonText "Array", .fn .toFloat64 [.fn .jsonLength [x.2.jsonText]],
      .value none]
  | _, _ => .panic
where
  binned (x size : Expr × Written) : Sql :=
    if x.1.typ = .time then .fn .toStartOfInterval [x.2.value, size.2.value]
    else .fn .multiply [.fn .floor [.fn .divide [x.2.value, size.2.value]], size.2.value]

end Calls

section Aggregates

/-- The columns of a relation that rates are counted from: the seconds of a row's bin in range, and
how many rows are in a row's second. -/
def binSecondsColumn : String := "#bin_seconds"

def secondCountColumn : String := "#second_count"

/-- One of summarize's functions of a value of a type. -/
def writeAggregate (f : Fields) (fn : AggregateFunction) (x : Option (ValueType × Written))
    (percent : ℚ) : Sql :=
  match fn, x with
  | .count, _ => .aggregate .count []
  | .rate, _ =>
    .fn .coalesce [.fn .divide [.aggregate .count [],
      .fn .nullIf [.aggregate .minOrNull [f.column binSecondsColumn], .number 0]], .number 0]
  | .peakRate, _ =>
    .fn .coalesce [.aggregate .maxOrNull [f.column secondCountColumn], .number 0]
  | .countif, some (_, x) => .aggregate .countIf [x.value]
  | .dcount, some (t, x) =>
    if t = .dynamic then .aggregate .uniqIf [x.value, .fn .not [dynamicMissing x.value]]
    else .aggregate .uniq [x.value]
  | .percentile, some (_, x) =>
    .fn .toFloat64 [.aggregate (.quantileTDigestOrNull (percent / 100)) [x.value]]
  | .sum, some (_, x) => .aggregate .sumOrNull [x.value]
  | .avg, some (_, x) => .aggregate .avgOrNull [x.value]
  | .min, some (_, x) => .aggregate .minOrNull [x.value]
  | .max, some (_, x) => .aggregate .maxOrNull [x.value]
  | _, none => .panic

end Aggregates

section Write

variable (lib : Library) (f : Fields)

def ArithOp.fn : ArithOp → Fn
  | .plus => .plus
  | .minus => .minus
  | .star => .multiply
  | .slash => .divide
  | .mod => .modulo

mutual

/-- What an expression is written as, over rows that keep their Fields where `f` says. -/
def write : Expr → Written
  | .fieldRef name builtIn t => writeFieldRef f name builtIn t
  | .attributeText name => .ofValue .string (writeText (f.attributeOf · name))
  | .jsonValueText x => .ofValue .string (writeText (write x).partsOf)
  | .columnRef name t _ => .ofValue t (f.column name)
  | .partOf x t => .ofValue t (typedPart (write x).partsOf t)
  | .literal l => .ofValue l.valueType (writeLiteral l)
  | .compare x op y => .ofTest (writeCompare f x op y (write x) (write y))
  | .textMatch op x pattern caseSensitive =>
    .ofTest (testOf (writeTextMatch op (write x).value pattern caseSensitive))
  | .isEmpty x => .ofTest (isEmptyCondition x.typ (write x))
  | .always => .ofValue .bool .panic
  | .and x y => .ofTest (andCondition (write x).condition (write y).condition)
  | .or x y => .ofTest (orCondition (write x).condition (write y).condition)
  | .not x => .ofTest fun negate => (write x).condition !negate
  | .arith op x y t => .ofValue t (.fn op.fn [(write x).value, (write y).value])
  | .negative x => .ofValue x.typ (.fn .negate [(write x).value])
  | .call fn args t => .ofValue t (writeCall lib fn (args.zip (writeAll args)))
  | .parsedJSON x => .ofParts (parsedParts (write x).value) (write x).value
  | .member x path =>
    let v := writeMember (write x).jsonText path
    .ofParts (jsonParts v v) v
  | .aggregate fn (some x) percent t =>
    .ofValue t (writeAggregate f fn (some (x.typ, write x)) percent)
  | .aggregate fn none percent t => .ofValue t (writeAggregate f fn none percent)

def writeAll : List Expr → List Written
  | [] => []
  | x :: rest => write x :: writeAll rest

end

/-- An expression as a value. -/
def writeValue (x : Expr) : Sql := (write lib f x).value

/-- A condition, or its negation when `negate` is set. -/
def writeCondition (p : Expr) (negate : Bool) : Sql := (write lib f p).condition negate

end Write

section Head

variable (lib : Library) (cols : Columns)

/-- A case-insensitive contains of any of some terms over message and every string Attribute. -/
def writeSearch (terms : List String) : Sql :=
  .disjunction (terms.flatMap fun term =>
    [.fn .greater [caseInsensitivePosition (cols.builtIn "message") term, .number 0],
      .fn .greater [caseInsensitivePosition cols.searchText term, .number 0]])

/-- The condition of a stage of the head. -/
def headCondition : Stage → Option Sql
  | .whereStage p => some (writeCondition lib cols.toFields p false)
  | .searchStage terms => some (writeSearch cols terms)
  | _ => none

/-- Every one of some conditions, or none where there is none. -/
def allOf : List Sql → Option Sql
  | [] => none
  | conditions => some (.conjunction conditions)

/-- A Query's head as one condition, or none if it keeps every Log. -/
def Query.where (q : Query) : Option Sql := allOf (q.head.filterMap (headCondition lib cols))

end Head

end SolidTrace.LogQuery
