import SolidTrace.LogQuery.Compile

/-!
# Compiling a Query

Where conditions with Dashboard filters, the stages one after another, the range the leading
conditions on time narrow, and what the Query returns.
-/

namespace SolidTrace.LogQuery

section Predicates

/-- Note that the Query names a filter, and give its values but the empty ones. -/
def valuesOf (env : Env) (p : Syntax.Param) : Compiler (List String) := do
  modify fun s =>
    if s.parameters.contains p.name then s else { s with parameters := s.parameters ++ [p.name] }
  return (env.values p.name).filter (· != "")

/-- The operators a filter can be compared with, and whether it can go on either side. -/
def filterOps : Syntax.BinaryOp → Option Bool
  | .eq | .ne | .eqCI | .neCI => some true
  | .contains | .notContains | .containsCS | .notContainsCS => some false
  | .startsWith | .notStartsWith | .startsWithCS | .notStartsWithCS => some false
  | _ => none

/-- The filter of a comparison, and what it is compared with. -/
def filterSides (x : Syntax.Expr) (op : Syntax.BinaryOp) (y : Syntax.Expr) :
    Option (Syntax.Param × Syntax.Expr) :=
  match filterOps op, x, y with
  | none, _, _ => none
  | some _, x, .param p => some (p, x)
  | some true, .param p, y => some (p, y)
  | _, _, _ => none

/-- Whether an expression read as a string is a value of no fixed type. -/
def untyped : Expr → Bool
  | .fieldRef _ builtIn _ => !builtIn
  | .partOf _ _ => true
  | _ => false

/-- The number or bool a filter's text value reads as, if any. -/
def readsAs (env : Env) (v : String) : Option Literal :=
  match env.lib.parseFloat v with
  | some n => some (.number n)
  | none => if v == "true" || v == "false" then some (.bool (v == "true")) else none

/-- A filter's text value as a value of a type, if it reads as one, or else as text. -/
def valueAs (env : Env) (t : ValueType) (v : String) : Literal :=
  match readsAs env v with
  | some l => if l.valueType = t then l else .string v
  | none => .string v

/-- A comparison with one value of a filter. -/
def filterValue (env : Env) (text : Option TextOp) (negated : Bool) (side : Compile) (x : Expr)
    (v : String) : Compiler Expr := do
  let op := if negated then CompareOp.ne else .eq
  let m := match text with
    | some text => text.match x v
    | none => .compare x op (.literal (valueAs env x.typ v))
  let readsOther := match text with
    | some text => text.op == .equals
    | none => true
  match readsAs env v with
  | some l =>
    if untyped x && readsOther then
      let y ← side env l.valueType none
      let other := Expr.compare y op (.literal l)
      return if negated then .and m other else .or m other
    else return m
  | none => return m

/-- With several values, a positive operator matches any of them and a negated one none. -/
def filterValues (env : Env) (text : Option TextOp) (negated : Bool) (side : Compile) (x : Expr) :
    Expr → List String → Compiler Expr
  | all, [] => return all
  | all, v :: rest => do
    let m ← filterValue env text negated side x v
    filterValues env text negated side x (if negated then .and all m else .or all m) rest

/-- `side op $name`. With no values it is always true, and what compiling its side noted is
forgotten. -/
def filter (env : Env) (opSpan : Span) (op : Syntax.BinaryOp) (p : Syntax.Param)
    (side : Syntax.Expr) : Compiler Expr := do
  match side with
  | .param _ => errorAt p.span s!"compare ${p.name} with a field, as in service == ${p.name}"
  | side =>
    let values ← valuesOf env p
    let before ← get
    let text := textOp? op
    let x ← match text with
      | some text => textOperand side.span opSpan text (expr side) env none
      | none => expr side env .string none
    let negated := op == .ne || (text.map TextOp.negated).getD false
    match values with
    | [] =>
      modify fun s => { s with readOrder := before.readOrder, names := before.names }
      return .always
    | v :: rest =>
      let m ← filterValue env text negated (expr side) x v
      filterValues env text negated (expr side) x m rest

/-- A where's condition, in which a filter may be compared. `and` and `or` fold away a comparison
with a filter set to All. -/
def predicate (env : Env) : Syntax.Expr → Compiler Expr
  | .paren _ x _ => predicate env x
  | .binary x opSpan op y =>
    match op with
    | .and => do
      let x ← predicate env x
      let y ← predicate env y
      return if x.isAlways then y else if y.isAlways then x else .and x y
    | .or => do
      let x ← predicate env x
      let y ← predicate env y
      return if x.isAlways || y.isAlways then .always else .or x y
    | op =>
      match filterSides x op y with
      | some (p, side) => filter env opSpan op p side
      | none => condition (expr (.binary x opSpan op y)) (.union [x.span, opSpan, y.span]) env
  | e => condition (expr e) e.span env

/-- An operator with a parameter for a side is a filter. -/
theorem predicate_filter {env : Env} {x y side : Syntax.Expr} {opSpan : Span} {op : Syntax.BinaryOp}
    {p : Syntax.Param} (hand : op ≠ .and) (hor : op ≠ .or) (hsides : filterSides x op y = some (p, side)) :
    predicate env (.binary x opSpan op y) = filter env opSpan op p side := by
  rw [predicate, hsides] <;> assumption

/-- An operator without one is a condition. -/
theorem predicate_plain {env : Env} {x y : Syntax.Expr} {opSpan : Span} {op : Syntax.BinaryOp}
    (hand : op ≠ .and) (hor : op ≠ .or) (hsides : filterSides x op y = none) :
    predicate env (.binary x opSpan op y) =
      condition (expr (.binary x opSpan op y)) (.union [x.span, opSpan, y.span]) env := by
  rw [predicate, hsides] <;> assumption

/-- What holds of a condition's parts, of filters and of other conditions holds of every condition. -/
theorem predicate_induct (env : Env) {motive : Syntax.Expr → Compiler Expr → Prop}
    (paren : ∀ lparen x rparen, motive x (predicate env x) → motive (.paren lparen x rparen) (predicate env x))
    (and : ∀ x opSpan y, motive x (predicate env x) → motive y (predicate env y) →
      motive (.binary x opSpan .and y) (do
        let x ← predicate env x
        let y ← predicate env y
        return if x.isAlways then y else if y.isAlways then x else .and x y))
    (or : ∀ x opSpan y, motive x (predicate env x) → motive y (predicate env y) →
      motive (.binary x opSpan .or y) (do
        let x ← predicate env x
        let y ← predicate env y
        return if x.isAlways || y.isAlways then .always else .or x y))
    (filters : ∀ x opSpan op y, op ≠ .and → op ≠ .or → ∀ p side, filterSides x op y = some (p, side) →
      motive (.binary x opSpan op y) (filter env opSpan op p side))
    (plain : ∀ x opSpan op y, op ≠ .and → op ≠ .or → filterSides x op y = none →
      motive (.binary x opSpan op y)
        (condition (expr (.binary x opSpan op y)) (.union [x.span, opSpan, y.span]) env))
    (other : ∀ e, (∀ lparen x rparen, e ≠ .paren lparen x rparen) →
      (∀ x opSpan op y, e ≠ .binary x opSpan op y) → motive e (condition (expr e) e.span env)) (e : Syntax.Expr) :
    motive e (predicate env e) := by
  cases e with
  | paren lparen x rparen =>
    exact paren lparen x rparen (predicate_induct env paren and or filters plain other x)
  | binary x opSpan op y =>
    by_cases hand : op = .and
    · subst hand
      exact and x opSpan y (predicate_induct env paren and or filters plain other x)
        (predicate_induct env paren and or filters plain other y)
    by_cases hor : op = .or
    · subst hor
      exact or x opSpan y (predicate_induct env paren and or filters plain other x)
        (predicate_induct env paren and or filters plain other y)
    cases hsides : filterSides x op y with
    | none =>
      rw [predicate_plain hand hor hsides]
      exact plain x opSpan op y hand hor hsides
    | some sides =>
      rw [predicate_filter hand hor hsides]
      exact filters x opSpan op y hand hor sides.1 sides.2 hsides
  | _ => exact other _ (by simp) (by simp)

end Predicates

section Rates

/-- What a stage makes of a column's name: a value of its input, the column as it was, or nothing
that is known. -/
inductive Made where
  | value (x : Expr)
  | kept
  | lost

/-- The first column of a name. -/
def findColumn (columns : List NamedValue) (name : String) : Option Expr :=
  (columns.find? (·.name == name)).map NamedValue.x

/-- Any stage but extend makes all its rows' columns. -/
def made (stage : Stage) (name : String) : Made :=
  match stage with
  | .extendStage columns => ((findColumn columns name).map Made.value).getD .kept
  | .projectStage columns => ((findColumn columns name).map Made.value).getD .lost
  | .summarizeStage columnsBy _ => ((findColumn columnsBy name).map Made.value).getD .lost
  | .distinctStage columns => ((findColumn columns name).map Made.value).getD .lost
  | .countStage => .lost
  | _ => .kept

/-- Whether an expression, read after some stages, the last of them first, is the Log's own time. -/
def isLogTime : List Stage → Expr → Bool
  | _, .fieldRef name builtIn _ => builtIn && name == "time"
  | stage :: before, .columnRef name t message =>
    match made stage name with
    | .value x => isLogTime before x
    | .kept => isLogTime before (.columnRef name t message)
    | .lost => false
  | _, _ => false

/-- The size of the bins that an expression, read after some stages, puts Logs in, if it is bin or
floor of the Log's own time, or a column that holds such bins. -/
def binOfLogTime : List Stage → Expr → Option ℤ
  | before, .call fn [x, .literal (.timespan size)] _ =>
    if (fn == .bin || fn == .floor) && isLogTime before x then some size else none
  | stage :: before, .columnRef name t message =>
    match made stage name with
    | .value x => binOfLogTime before x
    | .kept => binOfLogTime before (.columnRef name t message)
    | .lost => none
  | _, _ => none

/-- The time bin of a summarize: the first of its by columns that bins the Logs' own time. -/
def rateBin (before : List Stage) : List NamedValue → Option (NamedValue × ℤ)
  | [] => none
  | col :: rest =>
    match binOfLogTime before col.x with
    | some size => some (col, size)
    | none => rateBin before rest

/-- The rate basis of a summarize after some stages, the last of them first. -/
def rateBasisOf (before : List Stage) (scope : Scope) (columnsBy : List NamedValue) : RateBasis :=
  let bin := (rateBin before columnsBy).map Prod.snd
  { bin := bin.getD 0
    otherTime := bin.isNone && columnsBy.any fun col => col.x.typ == .time
    logTime := match scope.lookup "time" with
      | some col => isLogTime before (.columnRef col.name col.t false)
      | none => scope.logs }

end Rates

section Columns

mutual

/-- Whether an expression has an aggregate, of a function if one is given. -/
def hasAggregate (fn : Option AggregateFunction) : Expr → Bool
  | .aggregate f _ _ _ => fn.isNone || fn == some f
  | .arith _ x y _ => hasAggregate fn x || hasAggregate fn y
  | .negative x => hasAggregate fn x
  | .call _ args _ => anyHasAggregate fn args
  | .parsedJSON x => hasAggregate fn x
  | _ => false

def anyHasAggregate (fn : Option AggregateFunction) : List Expr → Bool
  | [] => false
  | x :: rest => hasAggregate fn x || anyHasAggregate fn rest

end

/-- The last name on a path. -/
def lastKey (path : List PathStep) : Option String :=
  path.reverse.findSome? fun
    | .key name => some name
    | .element _ => none

mutual

/-- The name of the first Field or column an expression reads, or the empty name. -/
def fieldName : Expr → String
  | .fieldRef name _ _ => name
  | .columnRef name _ _ => name
  | .partOf x _ => fieldName x
  | .call _ args _ => firstFieldName args
  | .aggregate _ (some x) _ _ => fieldName x
  | .arith _ x y _ => if fieldName x != "" then fieldName x else fieldName y
  | .negative x => fieldName x
  | .parsedJSON x => fieldName x
  | .member x path => (lastKey path).getD (fieldName x)
  | _ => ""

def firstFieldName : List Expr → String
  | [] => ""
  | x :: rest => if fieldName x != "" then fieldName x else firstFieldName rest

end

/-- The name of an unnamed aggregate, such as `count_` or `percentile_duration_95`. -/
def aggregateName (env : Env) (x : Expr) : String :=
  match x with
  | .aggregate fn _ percent _ =>
    let name := fn.text ++ "_" ++ fieldName x
    if fn == .percentile then name ++ "_" ++ env.lib.formatFloat percent else name
  | _ => ""

/-- Refuse columns of the same name, at the second. -/
def uniqueNames (env : Env) : List String → List NamedValue → Compiler Unit
  | _, [] => return ()
  | seen, col :: rest =>
    if seen.contains col.name then
      errorAt col.span s!"two columns are named {env.lib.quote col.name}; name one, as in {col.name}2 = …"
    else uniqueNames env (seen ++ [col.name]) rest

/-- The columns' names and values, the `i`-th first. -/
def namedColumns (env : Env) (aggregates : Option RateBasis) :
    ℕ → List Syntax.NamedExpr → Compiler (List NamedValue)
  | _, [] => return []
  | i, e :: rest => do
    let x ← expr e.x env .any aggregates
    let name := match e.name with
      | some id => id.name
      | none => if aggregates.isSome then aggregateName env x else fieldName x
    let name := if name == "" then s!"Column{i}" else name
    return ⟨name, x, e.span⟩ :: (← namedColumns env aggregates (i + 1) rest)

/-- The columns of project, extend, summarize or distinct. -/
def columns (env : Env) (exprs : List Syntax.NamedExpr) (aggregates : Option RateBasis) :
    Compiler (List NamedValue) := do
  let columns ← namedColumns env aggregates 1 exprs
  uniqueNames env [] columns
  return columns

def columnsOf (values : List NamedValue) : List Column :=
  values.map fun v => ⟨v.name, v.x.typ, v.x.isMessage⟩

/-- The columns after an extend: one of an existing name replaces it. -/
def extendColumns (old new : List Column) : List Column :=
  new.foldl (fun columns col => columns.filter (·.name != col.name) ++ [col]) old

def sortKey (env : Env) (k : Syntax.SortKey) : Compiler SortKey := do
  let x ← expr k.x env .any none
  return ⟨x, k.asc, match k.nulls with
    | none => k.asc
    | some nulls => nulls == .first⟩

/-- take's or top's number of rows. -/
def rowCount (lit : Syntax.BasicLit) : Compiler ℕ :=
  match lit.value.toNat? with
  | some n =>
    if n ≤ 9223372036854775807 then return n else errorAt lit.span "expected a whole number of rows"
  | none => errorAt lit.span "expected a whole number of rows"

end Columns

section Stages

def setScope (scope : Scope) : Compiler Unit := modify fun s => { s with scope }

/-- Each of a summarize's aggregates has a function. -/
def checkAggregates : List NamedValue → List Syntax.NamedExpr → Compiler Unit
  | a :: rest, e :: es =>
    if hasAggregate none a.x then checkAggregates rest es
    else errorAt e.x.span "expected a function such as count(), dcount(x) or avg(x) before by"
  | _, _ => return ()

/-- The next stage of a Query, after the stages of its tail so far, the last of them first. -/
def stage (env : Env) (before : List Stage) (s : Syntax.Stage) : Compiler Stage :=
  match s with
  | .whereStage _ _ p => do return .whereStage (← predicate env p)
  | .searchTextStage _ _ term => do
    if (← get).tail then
      errorAt s.span "search only comes before other stages; after them, use where … contains"
    else return .searchStage [term.value]
  | .searchParamStage _ _ term => do
    if (← get).tail then
      errorAt s.span "search only comes before other stages; after them, use where … contains"
    else
      let terms ← valuesOf env term
      return if terms.isEmpty then .whereStage .always else .searchStage terms
  | .projectStage _ _ cols => do
    let cols ← columns env cols none
    setScope ⟨false, columnsOf cols⟩
    return .projectStage cols
  | .extendStage _ _ cols => do
    let cols ← columns env cols none
    modify fun s =>
      { s with scope := { s.scope with columns := extendColumns s.scope.columns (columnsOf cols) } }
    return .extendStage cols
  | .summarizeStage _ _ aggs cols => do
    let columnsBy ← columns env cols none
    let basis := rateBasisOf before (← get).scope columnsBy
    let aggregates ← columns env aggs (some basis)
    checkAggregates aggregates aggs
    if columnsBy.isEmpty && aggregates.isEmpty then
      errorAt s.span "summarize needs a function such as count(), or by and columns"
    else
      uniqueNames env [] (columnsBy ++ aggregates)
      setScope ⟨false, columnsOf (columnsBy ++ aggregates)⟩
      return .summarizeStage columnsBy aggregates
  | .sortStage _ _ keys => do return .sortStage (← keys.mapM (sortKey env))
  | .takeStage _ _ n => do return .takeStage (← rowCount n)
  | .topStage _ _ n key => do
    let n ← rowCount n
    return .topStage n (← sortKey env key)
  | .countStage _ _ => do
    setScope ⟨false, [⟨"Count", .number, false⟩]⟩
    return .countStage
  | .distinctStage _ _ cols => do
    let cols ← columns env cols none
    setScope ⟨false, columnsOf cols⟩
    return .distinctStage cols

/-- Whether a stage is one of the head's. -/
def isHead : Syntax.Stage → Bool
  | .whereStage _ _ _ => true
  | .searchTextStage _ _ _ => true
  | .searchParamStage _ _ _ => true
  | _ => false

/-- A stage that keeps every row is left out. -/
def keepsAll : Stage → Bool
  | .whereStage p => p.isAlways
  | _ => false

/-- The stages of the head. -/
def headStages (env : Env) : List Syntax.Stage → Compiler (List Stage)
  | [] => return []
  | s :: rest => do
    let compiled ← stage env [] s
    let others ← headStages env rest
    return if keepsAll compiled then others else compiled :: others

/-- The stages of the tail, after those so far, the last of them first. -/
def tailStages (env : Env) : List Stage → List Syntax.Stage → Compiler (List Stage)
  | before, [] => return before.reverse
  | before, s :: rest => do
    let compiled ← stage env before s
    tailStages env (if keepsAll compiled then before else compiled :: before) rest

end Stages

section Range

def CompareOp.flipped : CompareOp → CompareOp
  | .eq => .eq
  | .ne => .ne
  | .lt => .gt
  | .le => .ge
  | .gt => .lt
  | .ge => .le

/-- The comparison of the Log's time with a time written in the Query, if that is what it is. -/
def timeBound : Expr → CompareOp → Expr → Option (CompareOp × ℤ)
  | .fieldRef "time" true _, op, .literal (.dateTime t) => some (op, t)
  | .literal (.dateTime t), op, .fieldRef "time" true _ => some (op.flipped, t)
  | _, _, _ => none

/-- Narrow a range by a condition on time. -/
def narrowBy (range : ℤ × ℤ) : Expr → ℤ × ℤ
  | .and x y => narrowBy (narrowBy range x) y
  | .compare x op y =>
    match timeBound x op y with
    | none => range
    | some (op, t) =>
      let after := t + 1000
      match op with
      | .gt => (max range.1 after, range.2)
      | .ge => (max range.1 t, range.2)
      | .lt => (range.1, min range.2 t)
      | .le => (range.1, min range.2 after)
      | .eq => (max range.1 t, min range.2 after)
      | .ne => range
  | _ => range

/-- Narrow a range by the conditions on time that every Log of the head must meet. -/
def narrow (head : List Stage) (range : ℤ × ℤ) : ℤ × ℤ :=
  if range.1 == zeroTime && range.2 == zeroTime then range
  else
    let narrowed := head.foldl (fun range s => match s with
      | .whereStage p => narrowBy range p
      | _ => range) range
    (narrowed.1, if narrowed.2 < narrowed.1 then narrowed.1 else narrowed.2)

end Range

section Shapes

/-- The bin size of a value that bins a time, or that holds bins. -/
def timeBin (hints : String → Option Hint) : Expr → Option ℤ
  | .call fn [x, .literal (.timespan size)] _ =>
    if (fn == .bin || fn == .floor) && x.typ == .time then
      match timeBin hints x with
      | some held => if held.tmod size == 0 then some held else some size
      | none => some size
    else none
  | .columnRef name _ _ =>
    match hints name with
    | some h => if h.bin > 0 then some h.bin else none
    | none => none
  | _ => none

/-- The hint of the first by column that bins a time. -/
def binHint (before : String → Option Hint) : List NamedValue → Option (String × Hint)
  | [] => none
  | col :: rest =>
    match timeBin before col.x with
    | some size => some (col.name, ⟨none, size⟩)
    | none => binHint before rest

/-- The shape of a summarize's table. -/
def summarized (columnsBy aggregates : List NamedValue) (before : String → Option Hint) : Shape :=
  let binned : String → Option Hint := match binHint before columnsBy with
    | some (name, hint) => fun n => if n == name then some hint else none
    | none => fun _ => none
  { hints := aggregates.foldl (fun hints col => match col.x with
      | .aggregate fn _ _ _ => fun n => if n == col.name then some ⟨some fn, 0⟩ else hints n
      | _ => hints) binned
    fillGaps := true }

/-- The hints after a project's, an extend's or a distinct's columns. -/
def renamed (columns : List NamedValue) (hints kept : String → Option Hint) (bins : Bool) :
    String → Option Hint :=
  columns.foldl (fun after col =>
    let hint := match col.x with
      | .columnRef name _ _ => hints name
      | x => if bins then (timeBin hints x).map fun size => ⟨none, size⟩ else none
    fun n => if n == col.name then hint else after n) kept

/-- What one stage makes of a table's shape. `bins` is set before the last summarize. -/
def stageShape (s : Shape) (bins : Bool) : Stage → Shape
  | .summarizeStage columnsBy aggregates => summarized columnsBy aggregates s.hints
  | .projectStage columns => { s with hints := renamed columns s.hints (fun _ => none) bins }
  | .extendStage columns => { s with hints := renamed columns s.hints s.hints bins }
  | .distinctStage columns => ⟨renamed columns s.hints (fun _ => none) bins, false⟩
  | .whereStage _ => { s with fillGaps := false }
  | .takeStage _ => { s with fillGaps := false }
  | .topStage _ _ => { s with fillGaps := false }
  | .countStage => ⟨fun _ => none, false⟩
  | _ => s

def isSummarize : Stage → Bool
  | .summarizeStage _ _ => true
  | _ => false

def tailShape : Shape → List Stage → Shape
  | s, [] => s
  | s, st :: rest => tailShape (stageShape s (rest.any isSummarize) st) rest

/-- Of the table's columns, only the first that holds time bins is its time axis. -/
def oneAxis : Bool → Shape → List NamedValue → Shape
  | axis, s, [] => { s with fillGaps := s.fillGaps && axis }
  | axis, s, col :: rest =>
    if (s.hint col.name).bin == 0 then oneAxis axis s rest
    else if axis then
      let hint := { s.hint col.name with bin := 0 }
      oneAxis true { s with hints := fun n => if n == col.name then some hint else s.hints n } rest
    else oneAxis true s rest

/-- A table's shape. -/
def shapeOf (tail : List Stage) (output : List NamedValue) : Shape :=
  oneAxis false (tailShape ⟨fun _ => none, false⟩ tail) output

end Shapes

section Finish

/-- Whether a sort keeps Logs newest first, as they come. -/
def newestFirst : List SortKey → Bool
  | [⟨.fieldRef name builtIn _, asc, _⟩] => !asc && builtIn && name == "time"
  | _ => false

/-- Whether a stage makes a table of Log rows. -/
def makesTable : Stage → Bool
  | .takeStage _ => false
  | .sortStage keys => !newestFirst keys
  | _ => true

/-- The smallest take of a Query. -/
def takeOf (tail : List Stage) : Option ℕ :=
  tail.foldl (fun take s => match s, take with
    | .takeStage n, none => some n
    | .takeStage n, some m => some (if n < m then n else m)
    | _, take => take) none

/-- The columns of a table of Logs: the built-in fields, then the Attributes the Query names, then
the columns extend added. -/
def logColumns (scope : Scope) (names : List String) : List NamedValue :=
  let builtIn := builtInOrder.map fun name =>
    match scope.lookup name with
    | some col => ⟨name, .columnRef name col.t false, .null⟩
    | none => ⟨name, .fieldRef name true ((builtInFields name).getD .any), .null⟩
  let attributes := (names.filter fun name => (scope.lookup name).isNone).map fun name =>
    ⟨name, .fieldRef name false .dynamic, .null⟩
  let added := (scope.columns.filter fun col => (builtInFields col.name).isNone).map fun col =>
    ⟨col.name, .columnRef col.name col.t false, .null⟩
  builtIn ++ attributes ++ added

/-- The table's columns over its last stage. A table of Logs reads every Attribute it shows. -/
def output : Compiler (List NamedValue) := do
  let s ← get
  if s.scope.logs then
    let shown := s.names.filter fun name => (s.scope.lookup name).isNone
    shown.forM fun name => dynamicParts.forM (read · name)
    return logColumns s.scope s.names
  else
    return s.scope.columns.map fun col => ⟨col.name, .columnRef col.name col.t false, .null⟩

end Finish

/-- Check a Query's tree for the given bounds, with the values of its Dashboard filters. -/
def compileTree (env : Env) (tree : Syntax.Query) : Compiler Query := do
  let head ← headStages env (tree.stages.takeWhile isHead)
  let range := narrow head (env.bounds.fromTime, env.bounds.toTime)
  let env := { env with bounds := { env.bounds with fromTime := range.1, toTime := range.2 } }
  modify fun s => { s with tail := true }
  let tail ← tailStages env [] (tree.stages.dropWhile isHead)
  let table := tail.any makesTable
  let output ← if table then output else pure []
  let s ← get
  return {
    head, tail, fromTime := range.1, toTime := range.2, parameters := s.parameters, table
    take := takeOf tail
    reads := if table then s.readOrder else []
    output
    shape := if table then shapeOf tail output else ⟨fun _ => none, false⟩ }

/-- Compile a Query's tree. -/
def compileQuery (env : Env) (tree : Syntax.Query) : Except Error Query :=
  (compileTree env tree).run' ⟨[], .logScope, false, [], []⟩

end SolidTrace.LogQuery
