import Mathlib.Data.Rat.Floor
import SolidTrace.LogQuery.Expr

/-!
# Compiling expressions

The tree of an expression checked against the language's functions, Fields and types. What a node
makes of its operands is a function of what compiles them, so that an operand can be compiled again
as another type, as the source does. Go's library functions on numbers, times, regular expressions
and quoted text are a parameter.
-/

namespace SolidTrace.LogQuery

/-- The functions of Go's standard library that the compiler calls. -/
structure Library where
  /-- `strconv.ParseFloat`, without what overflows to an infinity. -/
  parseFloat : String → Option ℚ
  /-- `strconv.FormatFloat` in the form `'f'`, to the fewest digits. -/
  formatFloat : ℚ → String
  /-- `time.Parse` by the first layout that reads the text. -/
  parseDateTime : String → Option ℤ
  /-- The error of `regexp.Compile`, if any. -/
  regexError : String → Option String
  /-- `regexp.NumSubexp`. -/
  numSubexp : String → ℕ
  /-- The verb `%q`. -/
  quote : String → String
  /-- `time.Duration.String`. -/
  formatDuration : ℤ → String

/-- A library that reads nothing. -/
def Library.readsNothing : Library where
  parseFloat _ := none
  formatFloat _ := ""
  parseDateTime _ := none
  regexError _ := none
  numSubexp _ := 0
  quote text := text
  formatDuration _ := ""

/-- The zero time, year 1. -/
def zeroTime : ℤ := -62135596800000000000

/-- What a Query runs within. Zero times mean no range, or the clock's time. -/
structure Bounds where
  fromTime : ℤ
  toTime : ℤ
  now : ℤ

/-- What expressions are compiled against, besides the compiler's state. -/
structure Env where
  lib : Library
  text : String
  bounds : Bounds
  clock : ℤ
  /-- The Dashboard filters' values. -/
  values : String → List String
  /-- Set inside `not(…)`, where a filter can't go. -/
  inNot : Bool

/-- The compiler's state: the filters named, the columns of the rows at the current stage, whether it
is past the leading filters, and the Attributes the tail reads and names. -/
structure CompilerState where
  parameters : List String
  scope : Scope
  tail : Bool
  readOrder : List AttrKey
  names : List String

abbrev Compiler := StateT CompilerState (Except Error)

/-- What a summarize's rates are counted in. -/
structure RateBasis where
  bin : ℤ
  otherTime : Bool
  logTime : Bool

/-- How an expression compiles: for the type asked of it, and for what rates are counted in where
summarize's functions are allowed. -/
abbrev Compile := Env → ValueType → Option RateBasis → Compiler Expr

def errorAt {α : Type} (span : Span) (message : String) : Compiler α := throw ⟨span, message⟩

/-- Note that the tail reads an Attribute. -/
def read (t : AttributeType) (key : String) : Compiler Unit :=
  modify fun s =>
    if s.tail && !s.readOrder.contains ⟨t, key⟩ then { s with readOrder := s.readOrder ++ [⟨t, key⟩] }
    else s

/-- Note that the Query names an Attribute. -/
def named (key : String) : Compiler Unit :=
  modify fun s => if s.names.contains key then s else { s with names := s.names ++ [key] }

/-- A name: a column, a built-in field or an Attribute. -/
def name (id : Syntax.Ident) : Compile := fun env want _ => do
  let name := if id.quoted then id.name else (fieldAliases id.name).getD id.name
  let scope := (← get).scope
  match scope.lookup name with
  | some col =>
    let ref := Expr.columnRef col.name col.t col.message
    if col.t == .dynamic && want.attributeType.isSome then return .partOf ref want
    else return ref
  | none =>
    if !scope.logs then
      let columns := ", ".intercalate scope.names
      errorAt id.span s!"unknown column {env.lib.quote id.name}; the columns here are {columns}"
    else
      match builtInFields name with
      | some t => return .fieldRef name true t
      | none =>
        named name
        match want.attributeType with
        | some t =>
          read t name
          return .fieldRef name false want
        | none =>
          dynamicParts.forM (read · name)
          return .fieldRef name false .dynamic

/-- An expression read as the type asked for: the part of a dynamic value of that type. -/
def typed (x : Expr) (want : ValueType) : Expr :=
  if want.attributeType.isSome && x.typ == .dynamic then .partOf x want else x

/-- The mistake of a Dashboard filter where it can't go. -/
def misplaced {α : Type} (env : Env) (p : Syntax.Param) : Compiler α :=
  if env.inNot then
    errorAt p.span s!"${p.name} can't go inside not(…), where All would keep nothing; exclude with != instead"
  else
    errorAt p.span s!"${p.name} only goes in a where, compared with ==, !=, =~, !~, contains or startswith, or in search ${p.name}"

/-- The Query's text at a span, for messages. -/
def source (env : Env) (span : Span) : String :=
  let bytes := (env.text.toUTF8.toList.drop span.start.toNat).take (span.stop - span.start).toNat
  env.lib.quote ((String.fromUTF8? ⟨bytes.toArray⟩).getD "")

section Literals

def numberLiteral (env : Env) (lit : Syntax.BasicLit) (negative : Bool) : Compiler Literal :=
  match env.lib.parseFloat lit.value with
  | none => errorAt lit.span s!"{lit.value} is too large a number"
  | some n => return .number (if negative then -n else n)

/-- The units a timespan can be written in. -/
def timespanUnits (unit : String) : Option ℤ :=
  if unit ∈ ["d", "day", "days"] then some 86400000000000
  else if unit ∈ ["h", "hr", "hrs", "hour", "hours"] then some 3600000000000
  else if unit ∈ ["m", "min", "minute", "minutes"] then some 60000000000
  else if unit ∈ ["s", "sec", "second", "seconds"] then some 1000000000
  else if unit ∈ ["ms", "milli", "millis", "millisecond", "milliseconds"] then some 1000000
  else if unit ∈ ["microsecond", "microseconds"] then some 1000
  else if unit ∈ ["tick", "ticks"] then some 100
  else none

/-- The whole nanoseconds of a number of them, towards zero. -/
def truncate (n : ℚ) : ℤ := if n < 0 then ⌈n⌉ else ⌊n⌋

/-- Read a timespan such as `1.5h`. The product is exact. The source's is a float64 made an int64, which may be
another in the last digits of a long timespan, and is one past 292 years. -/
def parseTimespan (lib : Library) (text : String) : Except String ℤ :=
  let isNumber := fun c : Char => c.isDigit || c == '.'
  let number := text.toList.takeWhile isNumber
  let unit := text.toList.dropWhile isNumber
  if number.isEmpty || unit.isEmpty then .error s!"{lib.quote text} isn't a timespan"
  else
    match timespanUnits (String.ofList unit) with
    | none => .error s!"{lib.quote text} isn't a timespan; use a unit such as d, h, m, s or ms"
    | some size =>
      match lib.parseFloat (String.ofList number) with
      | none => .error s!"{lib.quote text} isn't a timespan"
      | some n => .ok (truncate (n * size))

/-- A literal as written. -/
def literal (env : Env) (lit : Syntax.BasicLit) : Compiler Literal :=
  match lit.kind with
  | .string => return .string lit.value
  | .bool => return .bool (lit.value == "true")
  | .timespan =>
    match parseTimespan env.lib lit.value with
    | .error message => errorAt lit.span message
    | .ok d => return .timespan d
  | .dateTime =>
    match env.lib.parseDateTime lit.value with
    | some t => return .dateTime t
    | none =>
      errorAt lit.span s!"{env.lib.quote lit.value} isn't a time; write it as 2026-10-02T10:00:00Z or 2026-10-02"
  | .number => numberLiteral env lit false

end Literals

section Operators

/-- An expression that must be a condition. -/
def condition (c : Compile) (span : Span) (env : Env) : Compiler Expr := do
  let x ← c env .any none
  if x.typ != .bool then errorAt span "expected a condition, such as level == \"error\""
  else return x

def Syntax.Sign.text : Syntax.Sign → String
  | .plus => "+"
  | .minus => "-"

/-- The literal that an expression is, if it is a number. -/
def numberLit? : Syntax.Expr → Option Syntax.BasicLit
  | .basicLit lit => if lit.kind = .number then some lit else none
  | _ => none

def unary (span : Span) (op : Syntax.Sign) (e : Syntax.Expr) (c : Compile) : Compile :=
  fun env _ aggregates =>
    match numberLit? e with
    | some lit => return .literal (← numberLiteral env lit (op == .minus))
    | none => do
      let x ← c env .number aggregates
      match x, op with
      | .literal (.timespan d), .minus => return .literal (.timespan (-d))
      | _, _ =>
        if x.typ != .number && x.typ != .timespan then
          errorAt span s!"{op.text} needs a number, not a {x.typ.text}"
        else if op == .plus then return x
        else return .negative x

def arithOp? : Syntax.BinaryOp → Option ArithOp
  | .plus => some .plus
  | .minus => some .minus
  | .star => some .star
  | .slash => some .slash
  | .mod => some .mod
  | _ => none

def compareOp? : Syntax.BinaryOp → Option CompareOp
  | .eq => some .eq
  | .ne => some .ne
  | .lt => some .lt
  | .le => some .le
  | .gt => some .gt
  | .ge => some .ge
  | _ => none

/-- An operator that tests a string against a pattern. -/
structure TextOp where
  op : MatchOp
  caseSensitive : Bool
  negated : Bool

def TextOp.match (text : TextOp) (x : Expr) (pattern : String) : Expr :=
  let m := Expr.textMatch text.op x pattern text.caseSensitive
  if text.negated then .not m else m

def textOp? : Syntax.BinaryOp → Option TextOp
  | .contains => some ⟨.contains, false, false⟩
  | .notContains => some ⟨.contains, false, true⟩
  | .containsCS => some ⟨.contains, true, false⟩
  | .notContainsCS => some ⟨.contains, true, true⟩
  | .startsWith => some ⟨.startsWith, false, false⟩
  | .notStartsWith => some ⟨.startsWith, false, true⟩
  | .startsWithCS => some ⟨.startsWith, true, false⟩
  | .notStartsWithCS => some ⟨.startsWith, true, true⟩
  | .matchesRegex => some ⟨.regex, true, false⟩
  | .eqCI => some ⟨.equals, false, false⟩
  | .neCI => some ⟨.equals, false, true⟩
  | _ => none

/-- Check a regular expression written in the Query. -/
def checkRegex (env : Env) (span : Span) (pattern : String) : Compiler Unit :=
  match env.lib.regexError pattern with
  | some message => errorAt span s!"invalid regular expression: {message}"
  | none => return ()

/-- Whether an expression is a value parse_json or a path gives. -/
def isJSONValue : Expr → Bool
  | .parsedJSON _ => true
  | .member _ _ => true
  | _ => false

/-- A JSON value's type differs from row to row. -/
theorem typ_of_isJSONValue {x : Expr} (h : isJSONValue x = true) : x.typ = .dynamic := by
  cases x <;> first | rfl | cases h

/-- The string a text operator tests. contains reads an Attribute as text, arrays and deep nesting
as JSON. -/
def textOperand (span opSpan : Span) (text : TextOp) (c : Compile) (env : Env)
    (aggregates : Option RateBasis) : Compiler Expr := do
  let x ← c env .string aggregates
  if x.typ != .string then
    errorAt span s!"expected a string on the left of {source env opSpan}, not a {x.typ.text}"
  else
    match x with
    | .fieldRef name false _ =>
      if text.op == .contains then
        read .json name
        return .attributeText name
      else return x
    | .partOf part _ =>
      if isJSONValue part && text.op == .contains then return .jsonValueText part else return x
    | _ => return x

/-- A test of a string against a pattern written in the Query. -/
def textTest (x : Syntax.Expr) (opSpan : Span) (text : TextOp) (y : Syntax.Expr) (cx : Compile) :
    Compile := fun env _ aggregates => do
  let operand ← textOperand x.span opSpan text cx env aggregates
  match y with
  | .param p => misplaced env p
  | .basicLit ⟨span, .string, value⟩ =>
    if text.op == .regex then checkRegex env span value
    return text.match operand value
  | _ => errorAt y.span s!"expected a quoted string after {source env opSpan}"

/-- The type to ask of the other side of a comparison. -/
def concrete (t : ValueType) : ValueType := if t == .dynamic then .any else t

def isIdent : Syntax.Expr → Bool
  | .ident _ => true
  | _ => false

/-- `x op y`. The side with a type decides the type the other is read as. -/
def compare (span : Span) (x : Syntax.Expr) (op : CompareOp) (y : Syntax.Expr) (cx cy : Compile) :
    Compile := fun env _ aggregates => do
  let y₀ ← cy env .any aggregates
  let x' ← cx env (concrete y₀.typ) aggregates
  let y' ← if y₀.typ == .dynamic && x'.typ != .dynamic then cy env x'.typ aggregates else pure y₀
  if x'.typ == .dynamic && y'.typ == .dynamic then
    if isIdent x && isIdent y && (← get).scope.logs then
      errorAt y.span "expected a value: a string, a number, true or false"
    else
      errorAt span "can't compare two values whose types aren't known; convert one, as in tostring(a) == tostring(b)"
  else if op != .eq && op != .ne && x'.typ != y'.typ then
    errorAt span ("can't compare a " ++ x'.typ.text ++ " with a " ++ y'.typ.text)
  else if op != .eq && op != .ne && x'.typ == .bool then
    errorAt span "bools can only be compared with == and !="
  else return .compare x' op y'

def arith (span : Span) (op : ArithOp) (cx cy : Compile) : Compile := fun env _ aggregates => do
  let x ← cx env .number aggregates
  let y ← cy env (if x.typ == .time then .timespan else .number) aggregates
  let addsUp := op == .plus || op == .minus
  if x.typ == .number && y.typ == .number then return .arith op x y .number
  else if x.typ == .time && y.typ == .timespan && addsUp then
    match x, y with
    | .literal (.dateTime t), .literal (.timespan d) =>
      return .literal (.dateTime (if op == .minus then t - d else t + d))
    | _, _ => return .arith op x y .time
  else if x.typ == .timespan && y.typ == .timespan && addsUp then return .arith op x y .timespan
  else errorAt span s!"can't apply {op.text} to a {x.typ.text} and a {y.typ.text}"

/-- One more value of an `in` list: `match or x == value`. -/
def inElem (cx : Compile) (span : Span) (c : Compile) (env : Env) (aggregates : Option RateBasis)
    (so : Option Expr) : Compiler Expr := do
  let value ← c env .any aggregates
  match value with
  | .literal _ =>
    let x ← cx env value.typ aggregates
    let eq := Expr.compare x .eq value
    match so with
    | none => return eq
    | some m => return .or m eq
  | _ => errorAt span "expected a value: a string, a number, true or false"

def inElems (cx : Compile) (env : Env) (aggregates : Option RateBasis) :
    Expr → List (Span × Compile) → Compiler Expr
  | m, [] => return m
  | m, (span, c) :: rest => do inElems cx env aggregates (← inElem cx span c env aggregates (some m)) rest

/-- `x in (a, …)` as `x == a or …`, and `!in` as its negation. -/
def inList (negated : Bool) (cx : Compile) (first : Span × Compile) (rest : List (Span × Compile)) :
    Compile := fun env _ aggregates => do
  let m ← inElem cx first.1 first.2 env aggregates none
  let all ← inElems cx env aggregates m rest
  return if negated then .not all else all

def binary (x : Syntax.Expr) (opSpan : Span) (op : Syntax.BinaryOp) (y : Syntax.Expr)
    (cx cy : Compile) : Compile := fun env want aggregates =>
  let span := Span.union [x.span, opSpan, y.span]
  match op with
  | .and => do return .and (← condition cx x.span env) (← condition cy y.span env)
  | .or => do return .or (← condition cx x.span env) (← condition cy y.span env)
  | _ =>
    match arithOp? op, compareOp? op, textOp? op with
    | some op, _, _ => arith span op cx cy env want aggregates
    | _, some op, _ => compare span x op y cx cy env want aggregates
    | _, _, some text => textTest x opSpan text y cx env want aggregates
    | _, _, _ => errorAt opSpan "unsupported operator"

end Operators

section Paths

/-- What is in the brackets of `x[…]`: a name in quotes, or a whole number. -/
def pathStep (span : Span) (c : Compile) (env : Env) : Compiler PathStep := do
  let refuse : Compiler PathStep := errorAt span
    "expected an index written in the Query: a whole number, such as [0], or a name in quotes, such as [\"store-id\"]"
  match ← c env .any none with
  | .literal (.string s) => return .key s
  | .literal (.number n) => if n.den == 1 && |n| < 2147483647 then return .element n.num else refuse
  | _ => refuse

/-- Reach into the value of an expression, a dynamic one, by one more step. -/
def reach (accessor : Span) (c : Compile) (step : Env → Compiler PathStep) : Compile :=
  fun env want aggregates => do
    let x ← c env .any aggregates
    if x.typ != .dynamic then
      errorAt accessor s!"can't reach into a {x.typ.text}; .name and […] follow a dynamic value, such as parse_json(message)"
    else
      let step ← step env
      match x with
      | .member inner path => return typed (.member inner (path ++ [step])) want
      | _ => return typed (.member x [step]) want

end Paths

section Calls

/-- A function's argument: its place, and how it compiles. -/
abbrev Arg := Span × Compile

/-- The time a Query runs at. -/
def now (env : Env) : ℤ := if env.bounds.now == zeroTime then env.clock else env.bounds.now

/-- An argument that must be a timespan written in the Query. -/
def timespan (arg : Arg) (env : Env) : Compiler ℤ := do
  match ← arg.2 env .timespan none with
  | .literal (.timespan d) => return d
  | _ => errorAt arg.1 "expected a timespan, such as 1h or 30m"

/-- The bin sizes bin_auto picks from. -/
def binLadder : List ℤ :=
  [1, 5, 10, 30, 60, 300, 600, 1800, 3600, 10800, 21600, 43200, 86400, 604800].map (· * 1000000000)

/-- The bin size bin_auto picks for a time range: the smallest that splits it into at most about 100
bins. -/
def autoBin (span : ℤ) : ℤ :=
  if span ≤ 0 then 3600000000000
  else (binLadder.find? fun size => span.tdiv size ≤ 100).getD 604800000000000

/-- An argument that must be a number. -/
def numberArg (fn : AggregateFunction) (arg : Arg) (env : Env) : Compiler Expr := do
  let x ← arg.2 env .number none
  if x.typ != .number then errorAt arg.1 s!"{fn.text} takes a number, not a {x.typ.text}"
  else return x

def aggregateFunctions : String → Option AggregateFunction
  | "count" => some .count
  | "countif" => some .countif
  | "dcount" => some .dcount
  | "sum" => some .sum
  | "avg" => some .avg
  | "min" => some .min
  | "max" => some .max
  | "percentile" => some .percentile
  | "rate" => some .rate
  | "peak_rate" => some .peakRate
  | _ => none

/-- Refuse arguments to rate() or peak_rate(). -/
def rateArgs (span : Span) (fn : AggregateFunction) (args : List Arg) : Compiler Unit :=
  if args.isEmpty then return ()
  else errorAt span s!"{fn.text} takes no arguments; filter with where first, as in where path == \"/\" | summarize {fn.text}()"

/-- The least or the greatest value. An Attribute's is a number's. -/
def extremeArg (fn : AggregateFunction) (arg : Arg) (env : Env) : Compiler Expr := do
  let x₀ ← arg.2 env .any none
  let x ← if x₀.typ == .dynamic then numberArg fn arg env else pure x₀
  if x.typ == .bool then errorAt arg.1 s!"{fn.text} takes a number, a string or a time, not a bool"
  else return .aggregate fn (some x) 0 x.typ

/-- The percentage of percentile. -/
def percentArg (arg : Arg) (env : Env) : Compiler ℚ := do
  let refuse : Compiler ℚ := errorAt arg.1 "expected a percentage from 0 to 100"
  match ← arg.2 env .number none with
  | .literal (.number n) => if n < 0 || n > 100 then refuse else return n
  | _ => refuse

/-- One of summarize's functions, whose rates are counted in `basis`. -/
def aggregate (span : Span) (fn : AggregateFunction) (args : List Arg) (basis : RateBasis)
    (env : Env) : Compiler Expr :=
  match fn, args with
  | .count, [] => return .aggregate .count none 0 .number
  | .count, _ => errorAt span "count takes no arguments; use dcount(x) for distinct values"
  | .rate, args => do
    rateArgs span .rate args
    if basis.otherTime then
      errorAt span "rate() needs a time bin of the Logs' own time, such as bin(time, 1m)"
    else return .aggregate .rate none 0 .number
  | .peakRate, args => do
    rateArgs span .peakRate args
    if !basis.logTime then
      errorAt span "peak_rate() counts rows in each second of the Logs' own time, which these rows don't have"
    else if basis.bin.tmod 1000000000 != 0 then
      errorAt span s!"peak_rate() needs time bins of whole seconds, not {env.lib.formatDuration basis.bin}"
    else return .aggregate .peakRate none 0 .number
  | .countif, [arg] => do
    return .aggregate .countif (some (← condition arg.2 arg.1 env)) 0 .number
  | .countif, _ => errorAt span "countif takes one condition"
  | .percentile, [value, percent] => do
    let x ← numberArg .percentile value env
    return .aggregate .percentile (some x) (← percentArg percent env) .number
  | .percentile, _ =>
    errorAt span "percentile takes a value and a percentage, as in percentile(duration, 95)"
  | .sum, [arg] => do return .aggregate .sum (some (← numberArg .sum arg env)) 0 .number
  | .avg, [arg] => do return .aggregate .avg (some (← numberArg .avg arg env)) 0 .number
  | .min, [arg] => extremeArg .min arg env
  | .max, [arg] => extremeArg .max arg env
  | .dcount, [arg] => do return .aggregate .dcount (some (← arg.2 env .any none)) 0 .number
  | fn, _ => errorAt span s!"{fn.text} takes one value"

/-- A scalar function: what it is, its arguments' types, how many of them, at the end, a call may
leave out, and what to say to a call with the wrong number of arguments. parse_json, which makes an
expression of its own, is none. -/
structure Function where
  fn : Option ScalarFunction
  args : List ValueType
  optional : ℕ
  usage : Option String

def scalarFunctions : String → Option Function
  | "tostring" => some ⟨some .tostring, [.any], 0, none⟩
  | "tolower" => some ⟨some .tolower, [.string], 0, none⟩
  | "toupper" => some ⟨some .toupper, [.string], 0, none⟩
  | "strlen" => some ⟨some .strlen, [.string], 0, none⟩
  | "toint" => some ⟨some .toint, [.any], 0, none⟩
  | "tolong" => some ⟨some .tolong, [.any], 0, none⟩
  | "todouble" => some ⟨some .todouble, [.any], 0, none⟩
  | "toreal" => some ⟨some .toreal, [.any], 0, none⟩
  | "bin" => some ⟨some .bin, [.number, .any], 0, none⟩
  | "floor" => some ⟨some .floor, [.number, .any], 0, none⟩
  | "extract" => some ⟨some .extract, [.string, .number, .string], 0, some
      "a regex, a capture group and a string, as in extract(\"store_id=([0-9]+)\", 1, message)"⟩
  | "substring" => some ⟨some .substring, [.string, .number, .number], 1, some
      "a string, a start and an optional length, as in substring(message, 0, 160)"⟩
  | "round" => some ⟨some .round, [.number, .number], 1, some
      "a number and an optional precision, as in round(duration, 2)"⟩
  | "parse_json" => some ⟨none, [.string], 0, some "one string, as in parse_json(message)"⟩
  | "array_length" => some ⟨some .arrayLength, [.any], 0, some
      "one dynamic value, as in array_length(parse_json(message).ids)"⟩
  | _ => none

/-- The type of a scalar function's result. -/
def resultType (fn : ScalarFunction) (args : List Expr) : ValueType :=
  match fn with
  | .tostring | .tolower | .toupper | .extract | .substring => .string
  | .strlen | .toint | .tolong | .todouble | .toreal | .round | .arrayLength => .number
  | .bin | .floor => (args.head?.map Expr.typ).getD .any

def isSize : Expr → Bool
  | .literal l => !(l.timespanOf ≤ 0 && l.numberOf ≤ 0)
  | _ => false

def isGroup : Expr → Bool
  | .literal (.number n) => !(n < 0) && n.den == 1
  | _ => false

/-- Refuse an argument that is not of a type. -/
def needs (name : String) (t : ValueType) (arg : Expr × Span) (what : String) : Compiler Unit :=
  if arg.1.typ != t then errorAt arg.2 s!"{name} {what}, not a {arg.1.typ.text}" else return ()

/-- Check the types of a scalar function's arguments where its table doesn't say all. -/
def checkCall (env : Env) (name : String) (span : Span) (fn : Option ScalarFunction)
    (args : List (Expr × Span)) : Compiler Unit :=
  match fn, args with
  | some .tolower, x :: _ => needs name .string x "takes a string"
  | some .toupper, x :: _ => needs name .string x "takes a string"
  | some .strlen, x :: _ => needs name .string x "takes a string"
  | some .bin, [x, size] => binArgs x size
  | some .floor, [x, size] => binArgs x size
  | some .extract, [regex, group, x] => do
    match regex.1 with
    | .literal (.string pattern) => checkRegex env regex.2 pattern
    | _ => errorAt regex.2 "extract needs its regex written in the Query, as a quoted string"
    if !isGroup group.1 then
      errorAt group.2 "extract needs its capture group written in the Query, as a whole number of 0 or more"
    needs name .string x "takes a string"
  | some .substring, x :: rest => do
    needs name .string x "takes a string"
    match rest with
    | [start] => needs "substring's" .number start "start is a number"
    | [start, length] =>
      needs "substring's" .number start "start is a number"
      needs "substring's" .number length "length is a number"
    | _ => return ()
  | some .round, x :: rest => do
    needs name .number x "takes a number"
    match rest with
    | [precision] => needs "round's" .number precision "precision is a number"
    | _ => return ()
  | some .arrayLength, x :: _ =>
    needs name .dynamic x "takes a dynamic value, such as parse_json(message).ids"
  | none, x :: _ => needs name .string x "takes a string, such as message"
  | _, _ => return ()
where
  binArgs (x size : Expr × Span) : Compiler Unit :=
    if !(x.1.typ == .time && size.1.typ == .timespan) && !(x.1.typ == .number && size.1.typ == .number) then
      errorAt span s!"{name} takes a time and a timespan, as in bin(time, 5m), or two numbers"
    else if !isSize size.1 then
      errorAt size.2 s!"{name} needs a size above zero written in the Query"
    else return ()

/-- The arguments of a scalar function, each asked for its type. -/
def scalarArgs (env : Env) (aggregates : Option RateBasis) :
    List ValueType → List Arg → Compiler (List (Expr × Span))
  | t :: ts, arg :: args => do
    let x ← arg.2 env t aggregates
    return (x, arg.1) :: (← scalarArgs env aggregates ts args)
  | _, _ => return []

def scalar (name : String) (span : Span) (f : Function) (args : List Arg) (env : Env)
    (aggregates : Option RateBasis) : Compiler Expr :=
  if args.length > f.args.length || args.length < f.args.length - f.optional then
    match f.usage with
    | some usage => errorAt span s!"{name} takes {usage}"
    | none => errorAt span s!"{name} takes {f.args.length} arguments"
  else do
    let args ← scalarArgs env aggregates f.args args
    checkCall env name span f.fn args
    match f.fn, args with
    | some fn, args => return .call fn (args.map Prod.fst) (resultType fn (args.map Prod.fst))
    | none, (x, _) :: _ => return .parsedJSON x
    | none, [] => errorAt span s!"{name} takes one string, as in parse_json(message)"

/-- isempty and its kin: a test, and whether it is negated. -/
def emptyTests : String → Option Bool
  | "isempty" => some false
  | "isnull" => some false
  | "isnotempty" => some true
  | "isnotnull" => some true
  | _ => none

def emptyTest (name : String) (span : Span) (negated : Bool) (args : List Arg) (env : Env)
    (aggregates : Option RateBasis) : Compiler Expr :=
  match args with
  | [arg] => do
    let test := Expr.isEmpty (← arg.2 env .any aggregates)
    return if negated then .not test else test
  | _ => errorAt span s!"{name} takes one value"

def binAuto (span : Span) (args : List Arg) (env : Env) (aggregates : Option RateBasis) :
    Compiler Expr :=
  match args with
  | [arg] => do
    let x ← arg.2 env .any aggregates
    if x.typ != .time then errorAt arg.1 "bin_auto takes time"
    else
      let size := autoBin (env.bounds.toTime - env.bounds.fromTime)
      return .call .bin [x, .literal (.timespan size)] .time
  | _ => errorAt span "bin_auto takes time, as in bin_auto(time)"

def callOf (span : Span) (func : Syntax.Ident) (args : List Arg) (env : Env)
    (aggregates : Option RateBasis) : Compiler Expr :=
  match func.name, args with
  | "not", [arg] => do return .not (← condition arg.2 arg.1 { env with inNot := true })
  | "not", _ => errorAt span "not takes one condition"
  | "now", [] => return .literal (.dateTime (now env))
  | "now", _ => errorAt span "now takes no arguments"
  | "ago", [arg] => do return .literal (.dateTime (now env - (← timespan arg env)))
  | "ago", _ => errorAt span "ago takes a timespan, such as ago(1h)"
  | "bin_auto", args => binAuto span args env aggregates
  | name, args =>
    match emptyTests name, aggregateFunctions name, scalarFunctions name with
    | some negated, _, _ => emptyTest name span negated args env aggregates
    | _, some fn, _ =>
      match aggregates with
      | none => errorAt func.span s!"{name}() only works in summarize"
      | some basis => aggregate span fn args basis env
    | _, _, some f => scalar name span f args env aggregates
    | _, _, _ => errorAt func.span s!"unknown function {env.lib.quote name}"

/-- A function call, read as the type asked for. -/
def call (span : Span) (func : Syntax.Ident) (args : List Arg) : Compile :=
  fun env want aggregates => do return typed (← callOf span func args env aggregates) want

end Calls

mutual

/-- How an expression compiles. -/
def expr : Syntax.Expr → Compile
  | .ident id => name id
  | .param p => fun env _ _ => misplaced env p
  | .basicLit lit => fun env _ _ => do return .literal (← literal env lit)
  | .binary x opSpan op y => binary x opSpan op y (expr x) (expr y)
  | .inList x _ negated _ first rest _ =>
    inList negated (expr x) (first.span, expr first) (exprs rest)
  | .unary opSpan op x => unary (.union [opSpan, x.span]) op x (expr x)
  | .paren _ x _ => expr x
  | .call func lparen args rparen => call (.union [func.span, lparen, rparen]) func (exprs args)
  | .member x dot name => reach (.union [dot, name.span]) (expr x) fun _ => pure (.key name.name)
  | .index x lbrack index rbrack =>
    reach (.union [lbrack, rbrack]) (expr x) (pathStep index.span (expr index))

def exprs : List Syntax.Expr → List Arg
  | [] => []
  | x :: rest => (x.span, expr x) :: exprs rest

end

end SolidTrace.LogQuery
