import SolidTrace.LogQuery.Notes
import SolidTrace.LogQuery.Writable

/-!
# What a summarize groups

ClickHouse groups rows by columns, and lets a column of the result read nothing of a row outside an
aggregate function but what they are grouped by. Which Fields and columns an expression reads outside of
one can be told from how it is written.
-/

namespace SolidTrace.LogQuery

section Reads

mutual

/-- The Fields and columns that an expression reads outside of aggregate functions. -/
def Expr.reads : Expr → List Expr
  | .fieldRef name builtIn t => [.fieldRef name builtIn t]
  | .attributeText name => [.attributeText name]
  | .jsonValueText x => x.reads
  | .columnRef name t message => [.columnRef name t message]
  | .partOf x _ => x.reads
  | .literal _ => []
  | .compare x _ y => x.reads ++ y.reads
  | .textMatch _ x _ _ => x.reads
  | .isEmpty x => x.reads
  | .always => []
  | .and x y => x.reads ++ y.reads
  | .or x y => x.reads ++ y.reads
  | .not x => x.reads
  | .arith _ x y _ => x.reads ++ y.reads
  | .negative x => x.reads
  | .call _ args _ => allReads args
  | .parsedJSON x => x.reads
  | .member x _ => x.reads
  | .aggregate _ _ _ _ => []

def allReads : List Expr → List Expr
  | [] => []
  | x :: rest => x.reads ++ allReads rest

end

/-- The Field or column that an expression is, if it is nothing else. -/
def Expr.alone : Expr → Option Expr
  | .fieldRef name builtIn t => some (.fieldRef name builtIn t)
  | .attributeText name => some (.attributeText name)
  | .columnRef name t message => some (.columnRef name t message)
  | _ => none

/-- An expression that stands alone is what it stands for. -/
theorem eq_of_alone {x r : Expr} (h : x.alone = some r) : x = r := by
  cases x <;> simp_all [Expr.alone]

mutual

/-- What is read is a Field or a column. -/
theorem alone_of_mem_reads : ∀ (x r : Expr), r ∈ x.reads → r.alone = some r
  | .fieldRef _ _ _, r, h => by
    rw [List.mem_singleton.1 h]
    rfl
  | .attributeText _, r, h => by
    rw [List.mem_singleton.1 h]
    rfl
  | .jsonValueText x, r, h => alone_of_mem_reads x r h
  | .columnRef _ _ _, r, h => by
    rw [List.mem_singleton.1 h]
    rfl
  | .partOf x _, r, h => alone_of_mem_reads x r h
  | .literal _, r, h => nomatch h
  | .compare x _ y, r, h =>
    (List.mem_append.1 h).elim (alone_of_mem_reads x r) (alone_of_mem_reads y r)
  | .textMatch _ x _ _, r, h => alone_of_mem_reads x r h
  | .isEmpty x, r, h => alone_of_mem_reads x r h
  | .always, r, h => nomatch h
  | .and x y, r, h => (List.mem_append.1 h).elim (alone_of_mem_reads x r) (alone_of_mem_reads y r)
  | .or x y, r, h => (List.mem_append.1 h).elim (alone_of_mem_reads x r) (alone_of_mem_reads y r)
  | .not x, r, h => alone_of_mem_reads x r h
  | .arith _ x y _, r, h => (List.mem_append.1 h).elim (alone_of_mem_reads x r) (alone_of_mem_reads y r)
  | .negative x, r, h => alone_of_mem_reads x r h
  | .call _ args _, r, h => alone_of_mem_allReads args r h
  | .parsedJSON x, r, h => alone_of_mem_reads x r h
  | .member x _, r, h => alone_of_mem_reads x r h
  | .aggregate _ _ _ _, r, h => nomatch h

/-- Every expression that is read stands alone. -/
theorem alone_of_mem_allReads : ∀ (xs : List Expr) (r : Expr), r ∈ allReads xs → r.alone = some r
  | [], _, h => nomatch h
  | x :: rest, r, h =>
    (List.mem_append.1 h).elim (alone_of_mem_reads x r) (alone_of_mem_allReads rest r)

end

/-- The expressions that an expression is made of. -/
def Expr.children : Expr → List Expr
  | .fieldRef _ _ _ => []
  | .attributeText _ => []
  | .jsonValueText x => [x]
  | .columnRef _ _ _ => []
  | .partOf x _ => [x]
  | .literal _ => []
  | .compare x _ y => [x, y]
  | .textMatch _ x _ _ => [x]
  | .isEmpty x => [x]
  | .always => []
  | .and x y => [x, y]
  | .or x y => [x, y]
  | .not x => [x]
  | .arith _ x y _ => [x, y]
  | .negative x => [x]
  | .call _ args _ => args
  | .parsedJSON x => [x]
  | .member x _ => [x]
  | .aggregate _ x _ _ => x.toList

/-- An expression stands in another, or is it. -/
inductive Expr.StandsIn (y : Expr) : Expr → Prop
  | self : StandsIn y y
  | child {x z : Expr} (hz : z ∈ x.children) (h : StandsIn y z) : StandsIn y x

/-- No aggregate stands inside another. -/
def Expr.Unnested (e : Expr) : Prop :=
  ∀ fn x percent t, (Expr.aggregate fn (some x) percent t).StandsIn e →
    ∀ fn' x' percent' t', ¬(Expr.aggregate fn' x' percent' t').StandsIn x

variable {lib : Library} {scope : Scope} {agg : Option RateBasis}

/-- What an expression that compiles is made of compiles, inside an aggregate without others. -/
theorem Checked.child {x y : Expr} (h : Checked lib scope agg x) (hy : y ∈ x.children) :
    Checked lib scope none y ∨ Checked lib scope agg y ∧ ∀ fn z percent t, x ≠ .aggregate fn z percent t := by
  cases h <;> simp_all [Expr.children]
  case compare hx hy' _ _ => rcases hy with rfl | rfl <;> simp_all
  case and hx hy' _ _ => rcases hy with rfl | rfl <;> simp_all
  case or hx hy' _ _ => rcases hy with rfl | rfl <;> simp_all
  case arith hx hy' _ => rcases hy with rfl | rfl <;> simp_all

/-- What stands in a checked expression is checked. -/
theorem Checked.standsIn {x y : Expr} (hy : y.StandsIn x) (h : Checked lib scope none x) :
    Checked lib scope none y := by
  induction hy with
  | self => exact h
  | child hz _ ih => exact ih ((h.child hz).elim id And.left)

/-- A checked expression has no aggregate in another. -/
theorem Checked.unnested {e : Expr} (h : Checked lib scope agg e) : e.Unnested := by
  intro fn x percent t hin fn' x' percent' t' hx'
  have hx : Checked lib scope none x := by
    generalize hagg : Expr.aggregate fn (some x) percent t = a at hin
    induction hin generalizing agg with
    | self =>
      subst hagg
      exact (h.child (by simp [Expr.children])).elim id fun hne => absurd rfl (hne.2 _ _ _ _)
    | child hz _ ih =>
      rcases h.child hz with hnone | hsome
      · exact ih hnone
      · exact ih hsome.1
  have haggregate := Checked.standsIn hx' hx
  cases haggregate

end Reads

section Outlines

/-- What can be told of an expression from how it is written: its type, the Fields and columns it reads
outside of aggregate functions, and the one that it is, if it is nothing else. -/
structure Outline where
  typ : ValueType
  reads : List Expr
  alone : Option Expr

/-- An expression's outline in a scope, where a type is asked of it. -/
abbrev Outlines := Scope → ValueType → Outline

def nameOf (id : Syntax.Ident) : String :=
  if id.quoted then id.name else (fieldAliases id.name).getD id.name

/-- The Field or column of a name. An Attribute is read as the type asked for. -/
def nameRead (id : Syntax.Ident) (scope : Scope) (want : ValueType) : Expr :=
  match scope.lookup (nameOf id) with
  | some col => .columnRef col.name col.t col.message
  | none =>
    match builtInFields (nameOf id) with
    | some t => .fieldRef (nameOf id) true t
    | none => .fieldRef (nameOf id) false (if want.attributeType.isSome then want else .dynamic)

def nameOutline (id : Syntax.Ident) : Outlines := fun scope want =>
  let r := nameRead id scope want
  if r.typ = .dynamic ∧ want.attributeType.isSome then ⟨want, [r], none⟩ else ⟨r.typ, [r], some r⟩

def literalType : Syntax.LiteralKind → ValueType
  | .string => .string
  | .bool => .bool
  | .timespan => .timespan
  | .dateTime => .time
  | .number => .number

def unaryOutline (op : Syntax.Sign) (e : Syntax.Expr) (x : Outlines) : Outlines := fun scope _ =>
  match numberLit? e with
  | some _ => ⟨.number, [], none⟩
  | none =>
    match op with
    | .plus => x scope .number
    | .minus => { x scope .number with alone := none }

def arithType (x y : ValueType) : ValueType :=
  if x = .number ∧ y = .number then .number else if x = .time then .time else .timespan

def arithOutline (x y : Outlines) : Outlines := fun scope _ =>
  let x := x scope .number
  let y := y scope (if x.typ == .time then .timespan else .number)
  ⟨arithType x.typ y.typ, x.reads ++ y.reads, none⟩

def compareOutline (x y : Outlines) : Outlines := fun scope _ =>
  let first := y scope .any
  let x := x scope (concrete first.typ)
  let y := if first.typ == .dynamic && x.typ != .dynamic then y scope x.typ else first
  ⟨.bool, x.reads ++ y.reads, none⟩

def textOutline (text : TextOp) (x : Outlines) : Outlines := fun scope _ =>
  let x := x scope .string
  match x.alone with
  | some (.fieldRef name false _) =>
    if text.op == .contains then ⟨.bool, [.attributeText name], none⟩ else ⟨.bool, x.reads, none⟩
  | _ => ⟨.bool, x.reads, none⟩

def binaryOutline (op : Syntax.BinaryOp) (x y : Outlines) : Outlines := fun scope want =>
  match op with
  | .and => ⟨.bool, (x scope .any).reads ++ (y scope .any).reads, none⟩
  | .or => ⟨.bool, (x scope .any).reads ++ (y scope .any).reads, none⟩
  | _ =>
    match arithOp? op, compareOp? op, textOp? op with
    | some _, _, _ => arithOutline x y scope want
    | _, some _, _ => compareOutline x y scope want
    | _, _, some text => textOutline text x scope want
    | _, _, _ => ⟨.any, [], none⟩

/-- A value is read once for each of a list. -/
def inListOutline (x : Outlines) (values : List Outlines) : Outlines := fun scope _ =>
  ⟨.bool, values.flatMap fun value => (x scope (value scope .any).typ).reads, none⟩

def typedOutline (x : Outline) (want : ValueType) : Outline :=
  if want.attributeType.isSome && x.typ == .dynamic then ⟨want, x.reads, none⟩ else x

def reachOutline (x : Outlines) : Outlines := fun scope want =>
  typedOutline ⟨.dynamic, (x scope .any).reads, none⟩ want

def aggregateType (fn : AggregateFunction) (args : List Outlines) (scope : Scope) : ValueType :=
  match fn, args with
  | .min, [x] => if (x scope .any).typ == .dynamic then .number else (x scope .any).typ
  | .max, [x] => if (x scope .any).typ == .dynamic then .number else (x scope .any).typ
  | _, _ => .number

def scalarOutlines (scope : Scope) : List ValueType → List Outlines → List Outline
  | t :: ts, x :: xs => x scope t :: scalarOutlines scope ts xs
  | _, _ => []

def scalarType (fn : ScalarFunction) (args : List ValueType) : ValueType :=
  match fn with
  | .tostring | .tolower | .toupper | .extract | .substring => .string
  | .strlen | .toint | .tolong | .todouble | .toreal | .round | .arrayLength => .number
  | .bin | .floor => args.head?.getD .any

def scalarOutline (f : Function) (args : List Outlines) (scope : Scope) : Outline :=
  let args := scalarOutlines scope f.args args
  match f.fn with
  | some fn => ⟨scalarType fn (args.map Outline.typ), args.flatMap Outline.reads, none⟩
  | none => ⟨.dynamic, (args.head?.map Outline.reads).getD [], none⟩

/-- The outline of a call of a function that is none of `not`, `now`, `ago` and `bin_auto`. -/
def namedOutline (name : String) (args : List Outlines) (scope : Scope) : Outline :=
  match emptyTests name, aggregateFunctions name, scalarFunctions name, args with
  | some _, _, _, [x] => ⟨.bool, (x scope .any).reads, none⟩
  | none, some fn, _, args => ⟨aggregateType fn args scope, [], none⟩
  | none, none, some f, args => scalarOutline f args scope
  | _, _, _, _ => ⟨.any, [], none⟩

def callOutline (func : Syntax.Ident) (args : List Outlines) (scope : Scope) : Outline :=
  match func.name, args with
  | "not", [x] => ⟨.bool, (x scope .any).reads, none⟩
  | "now", _ => ⟨.time, [], none⟩
  | "ago", _ => ⟨.time, [], none⟩
  | "bin_auto", [x] => ⟨.time, (x scope .any).reads, none⟩
  | name, args => namedOutline name args scope

mutual

def outline : Syntax.Expr → Outlines
  | .ident id => nameOutline id
  | .param _ => fun _ _ => ⟨.any, [], none⟩
  | .basicLit lit => fun _ _ => ⟨literalType lit.kind, [], none⟩
  | .binary x _ op y => binaryOutline op (outline x) (outline y)
  | .inList x _ _ _ first rest _ => inListOutline (outline x) (outline first :: outlines rest)
  | .unary _ op x => unaryOutline op x (outline x)
  | .paren _ x _ => outline x
  | .call func _ args _ => fun scope want => typedOutline (callOutline func (outlines args) scope) want
  | .member x _ _ => reachOutline (outline x)
  | .index x _ _ _ => reachOutline (outline x)

def outlines : List Syntax.Expr → List Outlines
  | [] => []
  | x :: rest => outline x :: outlines rest

end

end Outlines

section Described

/-- An expression is as its outline says. -/
structure Described (o : Outline) (x : Expr) : Prop where
  typ : x.typ = o.typ
  reads : x.reads = o.reads
  alone : x.alone = o.alone

/-- Whatever an expression compiles to is as its outline says. -/
def Outlined (c : Compile) (o : Outlines) : Prop :=
  ∀ env want agg scope, YieldsFrom (AtScope scope) (c env want agg) (Described (o scope want))

variable {env : Env} {scope : Scope} {agg : Option RateBasis} {cx cy : Compile} {ox oy : Outlines}

/-- No built-in field is dynamic. -/
theorem builtInFields_ne_dynamic {name : String} {t : ValueType} (h : builtInFields name = some t) :
    t ≠ .dynamic := by
  unfold builtInFields at h
  split at h <;> cases h <;> simp

/-- A name is outlined by its field's type and its field. -/
theorem name_outlined (id : Syntax.Ident) : Outlined (name id) (nameOutline id) := by
  intro env want agg scope
  have hname : (if id.quoted then id.name else (fieldAliases id.name).getD id.name) = nameOf id := rfl
  unfold name
  simp only [hname]
  refine YieldsFrom.get.bind fun s hs => ?_
  rw [hs]
  unfold nameOutline nameRead
  cases hcol : scope.lookup (nameOf id) with
  | some col =>
    simp only
    refine YieldsFrom.ite (fun hpart => .pure ?_) fun hpart => .pure ?_
    · have hpart' : (Expr.columnRef col.name col.t col.message).typ = .dynamic ∧
          want.attributeType.isSome = true := by simpa [Expr.typ] using hpart
      rw [if_pos hpart']
      exact ⟨rfl, rfl, rfl⟩
    · have hpart' : ¬((Expr.columnRef col.name col.t col.message).typ = .dynamic ∧
          want.attributeType.isSome = true) := by simpa [Expr.typ] using hpart
      rw [if_neg hpart']
      exact ⟨rfl, rfl, rfl⟩
  | none =>
    simp only
    refine YieldsFrom.ite (fun _ => errorAt_checks) fun _ => ?_
    cases hfield : builtInFields (nameOf id) with
    | some t =>
      have htyped : ¬((Expr.fieldRef (nameOf id) true t).typ = .dynamic ∧
          want.attributeType.isSome = true) := fun h => builtInFields_ne_dynamic hfield h.1
      rw [if_neg htyped]
      exact .pure ⟨rfl, rfl, rfl⟩
    | none =>
      refine named_atScope.bind fun _ _ => ?_
      cases hwant : want.attributeType with
      | some t =>
        have hne : want ≠ .dynamic := by
          rintro rfl
          cases hwant
        refine read_atScope.bind fun _ _ => .pure ?_
        simp [Expr.typ, hne]
        exact ⟨rfl, rfl, rfl⟩
      | none =>
        refine (YieldsFrom.forM fun _ _ => read_atScope).bind fun _ _ => .pure ?_
        simp [Expr.typ]
        exact ⟨rfl, rfl, rfl⟩

/-- A number is one. -/
theorem numberLiteral_typed {lit : Syntax.BasicLit} {negative : Bool} :
    YieldsFrom (AtScope scope) (numberLiteral env lit negative) fun l => l.valueType = .number := by
  unfold numberLiteral
  split
  · exact errorAt_checks
  · exact .pure rfl

/-- A literal has the type of its kind. -/
theorem literal_typed {lit : Syntax.BasicLit} :
    YieldsFrom (AtScope scope) (literal env lit) fun l => l.valueType = literalType lit.kind := by
  unfold literal
  cases lit.kind with
  | string => exact .pure rfl
  | bool => exact .pure rfl
  | timespan =>
    simp only
    split
    · exact errorAt_checks
    · exact .pure rfl
  | dateTime =>
    simp only
    split
    · exact .pure rfl
    · exact errorAt_checks
  | number => exact numberLiteral_typed

/-- A literal is outlined by its type, and reads nothing. -/
theorem literal_outlined (lit : Syntax.BasicLit) :
    Outlined (fun env _ _ => do return .literal (← literal env lit))
      fun _ _ => ⟨literalType lit.kind, [], none⟩ := by
  exact fun _ _ _ _ => literal_typed.bind fun l hl => .pure ⟨hl, rfl, rfl⟩

/-- A condition is outlined as its expression is. -/
theorem condition_outlined {span : Span} (h : Outlined cx ox) :
    YieldsFrom (AtScope scope) (condition cx span env) (Described (ox scope .any)) :=
  (h env .any none scope).bind fun _ hx => .ite (fun _ => errorAt_checks) fun _ => .pure hx

/-- A sign or a negation is outlined. -/
theorem unary_outlined {span : Span} {op : Syntax.Sign} {e : Syntax.Expr} (h : Outlined cx ox) :
    Outlined (unary span op e cx) (unaryOutline op e ox) := by
  intro env want agg scope
  unfold unary unaryOutline
  cases numberLit? e with
  | some lit => exact numberLiteral_typed.bind fun l hl => .pure ⟨hl, rfl, rfl⟩
  | none =>
    refine (h env .number agg scope).bind fun x hx => ?_
    simp only
    split
    · exact .pure ⟨hx.typ, hx.reads, rfl⟩
    · refine .ite (fun _ => errorAt_checks) fun _ => .ite (fun hplus => .pure ?_) fun hplus => .pure ?_
      · obtain rfl : op = .plus := by simpa using hplus
        exact hx
      · obtain rfl : op = .minus := by
          cases op
          · exact absurd rfl hplus
          · rfl
        exact ⟨hx.typ, hx.reads, rfl⟩

/-- Arithmetic is outlined. -/
theorem arith_outlined {span : Span} {op : ArithOp} (hx : Outlined cx ox) (hy : Outlined cy oy) :
    Outlined (arith span op cx cy) (arithOutline ox oy) := by
  intro env want agg scope
  unfold arith
  refine (hx env .number agg scope).bind fun x hx => ?_
  refine (hy env _ agg scope).bind fun y hy => ?_
  have hsum : ∀ r : Expr, r.typ = arithType x.typ y.typ → r.reads = x.reads ++ y.reads → r.alone = none →
      Described (arithOutline ox oy scope want) r := by
    intro r htyp hreads halone
    refine ⟨?_, ?_, halone⟩
    · rw [htyp, hy.typ, hx.typ]
      rfl
    · rw [hreads, hx.reads, hy.reads, hx.typ]
      rfl
  refine .ite (fun hnumbers => .pure ?_) fun hnumbers => .ite (fun htime => ?_) fun htime =>
    .ite (fun hspans => .pure ?_) fun _ => errorAt_checks
  · have htypes : x.typ = .number ∧ y.typ = .number := by simpa using hnumbers
    exact hsum _ (by simp [Expr.typ, arithType, htypes]) rfl rfl
  · simp only [Bool.and_eq_true, beq_iff_eq] at htime
    have htyp : arithType x.typ y.typ = .time := by simp [arithType, htime]
    split
    · exact .pure (hsum _ htyp.symm rfl rfl)
    · exact .pure (hsum _ htyp.symm rfl rfl)
  · simp only [Bool.and_eq_true, beq_iff_eq] at hspans
    have htyp : arithType x.typ y.typ = .timespan := by simp [arithType, hspans]
    exact hsum _ htyp.symm rfl rfl

/-- A comparison is outlined. -/
theorem compare_outlined {span : Span} {x y : Syntax.Expr} {op : CompareOp} (hx : Outlined cx ox)
    (hy : Outlined cy oy) : Outlined (compare span x op y cx cy) (compareOutline ox oy) := by
  intro env want agg scope
  unfold compare
  refine (hy env .any agg scope).bind fun first hfirst => ?_
  refine (hx env _ agg scope).bind fun x' hx' => ?_
  have hrest : ∀ y', y'.reads = (if first.typ == .dynamic && x'.typ != .dynamic then oy scope x'.typ
        else oy scope .any).reads → YieldsFrom (AtScope scope) (do
      if x'.typ == .dynamic && y'.typ == .dynamic then
        if isIdent x && isIdent y && (← get).scope.logs then
          errorAt y.span "expected a value: a string, a number, true or false"
        else
          errorAt span "can't compare two values whose types aren't known; convert one, as in tostring(a) == tostring(b)"
      else if op != .eq && op != .ne && x'.typ != y'.typ then
        errorAt span ("can't compare a " ++ x'.typ.text ++ " with a " ++ y'.typ.text)
      else if op != .eq && op != .ne && x'.typ == .bool then
        errorAt span "bools can only be compared with == and !="
      else return .compare x' op y' : Compiler Expr) (Described (compareOutline ox oy scope want)) := by
    intro y' hy'
    refine .ite (fun _ => YieldsFrom.get.bind fun _ _ => .ite (fun _ => errorAt_checks) fun _ =>
      errorAt_checks) fun _ => .ite (fun _ => errorAt_checks) fun _ => .ite (fun _ => errorAt_checks)
        fun _ => .pure ⟨rfl, ?_, rfl⟩
    rw [Expr.reads, hx'.reads, hy', hx'.typ, hfirst.typ]
    rfl
  have hsame : YieldsFrom (AtScope scope) (pure first : Compiler Expr) fun y' =>
      y'.reads = (oy scope .any).reads := .pure hfirst.reads
  refine .ite (fun hagain => ?_) fun hnot => ?_
  · refine (hy env _ agg scope).bind fun y' hy' => hrest y' ?_
    rw [if_pos hagain, hy'.reads]
  · refine hsame.bind fun y' hy' => hrest y' ?_
    rw [if_neg hnot, hy']

/-- The operand of a text test reads what its expression reads. -/
theorem textOperand_outlined {span opSpan : Span} {text : TextOp} (hx : Outlined cx ox) :
    YieldsFrom (AtScope scope) (textOperand span opSpan text cx env agg) fun x =>
      x.reads = (textOutline text ox scope .any).reads := by
  unfold textOperand
  refine (hx env .string agg scope).bind fun x hx => .ite (fun _ => errorAt_checks) fun _ => ?_
  have halone := hx.alone
  unfold textOutline
  split
  next name t =>
    simp only [← halone, Expr.alone]
    refine .ite (fun hcontains => read_atScope.bind fun _ _ => .pure ?_) fun hcontains => .pure ?_
    · rw [if_pos hcontains]
      rfl
    · rw [if_neg hcontains]
      exact hx.reads
  next part t =>
    simp only [← halone, Expr.alone]
    exact .ite (fun _ => .pure hx.reads) fun _ => .pure hx.reads
  next hattr hpart =>
    simp only [← halone]
    split
    next name t h => exact absurd (eq_of_alone h) (hattr name t)
    · exact .pure hx.reads

/-- A text match is a bool that reads what its operand reads. -/
theorem match_described {text : TextOp} {x : Expr} {pattern : String} :
    Described ⟨.bool, x.reads, none⟩ (text.match x pattern) := by
  unfold TextOp.match
  simp only
  split
  · exact ⟨rfl, rfl, rfl⟩
  · exact ⟨rfl, rfl, rfl⟩

/-- A text test is a bool whatever is wanted of it. -/
theorem textOutline_eq {text : TextOp} {want : ValueType} :
    textOutline text ox scope want = ⟨.bool, (textOutline text ox scope .any).reads, none⟩ := by
  unfold textOutline
  simp only
  split
  · split
    · rfl
    · rfl
  · rfl

/-- A text test is outlined. -/
theorem textTest_outlined {x y : Syntax.Expr} {opSpan : Span} {text : TextOp} (hx : Outlined cx ox) :
    Outlined (textTest x opSpan text y cx) (textOutline text ox) := by
  intro env want agg scope
  unfold textTest
  refine (textOperand_outlined hx).bind fun operand hoperand => ?_
  have hmatch : ∀ value, Described (textOutline text ox scope want) (text.match operand value) := by
    intro value
    rw [textOutline_eq, ← hoperand]
    exact match_described
  split
  · exact .ite (fun _ => errorAt_checks) fun _ => errorAt_checks
  · refine .ite (fun _ => ?_) fun _ => .pure (hmatch _)
    refine YieldsFrom.bind (P := fun _ => True) ?_ fun _ _ => .pure (hmatch _)
    unfold checkRegex
    split
    · exact errorAt_checks
    · exact .pure trivial
  · exact errorAt_checks

/-- A binary operation is outlined. -/
theorem binary_outlined {x y : Syntax.Expr} {opSpan : Span} {op : Syntax.BinaryOp} (hx : Outlined cx ox)
    (hy : Outlined cy oy) : Outlined (binary x opSpan op y cx cy) (binaryOutline op ox oy) := by
  intro env want agg scope
  have hboth : ∀ f : Expr → Expr → Expr, (∀ x y, (f x y).typ = .bool ∧ (f x y).alone = none ∧
        (f x y).reads = x.reads ++ y.reads) → YieldsFrom (AtScope scope)
      (do return f (← condition cx x.span env) (← condition cy y.span env) : Compiler Expr)
      (Described ⟨.bool, (ox scope .any).reads ++ (oy scope .any).reads, none⟩) := by
    intro f hf
    refine (condition_outlined hx).bind fun x hx => (condition_outlined hy).bind fun y hy => .pure ?_
    obtain ⟨htyp, halone, hreads⟩ := hf x y
    exact ⟨htyp, by rw [hreads, hx.reads, hy.reads], halone⟩
  cases op with
  | and => exact hboth .and fun _ _ => ⟨rfl, rfl, rfl⟩
  | or => exact hboth .or fun _ _ => ⟨rfl, rfl, rfl⟩
  | plus | minus | star | slash | mod => exact arith_outlined hx hy env want agg scope
  | eq | ne | lt | le | gt | ge => exact compare_outlined hx hy env want agg scope
  | _ => exact textTest_outlined hx env want agg scope

/-- The reads of a value compared with one more of a list. -/
theorem inElem_outlined {span : Span} {so : Option Expr} (hx : Outlined cx ox) (hy : Outlined cy oy) :
    YieldsFrom (AtScope scope) (inElem cx span cy env agg so) fun m =>
      m.typ = .bool ∧ m.alone = none ∧
        m.reads = ((so.map Expr.reads).getD []) ++ (ox scope (oy scope .any).typ).reads := by
  unfold inElem
  refine (hy env .any agg scope).bind fun value hvalue => ?_
  split
  next l =>
    refine (hx env _ agg scope).bind fun x hx => ?_
    rw [hvalue.typ] at hx
    simp only
    split
    · refine .pure ⟨rfl, rfl, ?_⟩
      simp [Expr.reads, hx.reads]
    · refine .pure ⟨rfl, rfl, ?_⟩
      simp [Expr.reads, hx.reads]
  · exact errorAt_checks

/-- The elements of an in read what each of them reads. -/
theorem inElems_outlined {rest : List (Span × Compile)} {os : List Outlines} {m : Expr}
    (hx : Outlined cx ox) (hrest : List.Forall₂ (fun arg o => Outlined arg.2 o) rest os)
    (htyp : m.typ = .bool) (halone : m.alone = none) :
    YieldsFrom (AtScope scope) (inElems cx env agg m rest) fun all =>
      all.typ = .bool ∧ all.alone = none ∧
        all.reads = m.reads ++ os.flatMap fun o => (ox scope (o scope .any).typ).reads := by
  induction hrest generalizing m with
  | nil => exact .pure ⟨htyp, halone, by simp⟩
  | cons harg _ ih =>
    refine (inElem_outlined hx harg).bind fun m' hm' => ?_
    refine (ih hm'.1 hm'.2.1).mono fun all hall => ⟨hall.1, hall.2.1, ?_⟩
    rw [hall.2.2, hm'.2.2]
    simp

/-- An in is outlined. -/
theorem inList_outlined {negated : Bool} {first : Span × Compile} {rest : List (Span × Compile)}
    {o : Outlines} {os : List Outlines} (hx : Outlined cx ox) (hfirst : Outlined first.2 o)
    (hrest : List.Forall₂ (fun arg o => Outlined arg.2 o) rest os) :
    Outlined (inList negated cx first rest) (inListOutline ox (o :: os)) := by
  intro env want agg scope
  unfold inList
  refine (inElem_outlined hx hfirst).bind fun m hm => ?_
  refine (inElems_outlined hx hrest hm.1 hm.2.1).bind fun all hall => .pure ?_
  have hreads : all.reads = (inListOutline ox (o :: os) scope want).reads := by
    rw [hall.2.2, hm.2.2]
    simp [inListOutline]
  split
  · exact ⟨rfl, hreads, rfl⟩
  · exact ⟨hall.1, hreads, hall.2.1⟩

/-- An outline that is read as a type is that of the expression read so. -/
theorem typed_described {o : Outline} {x : Expr} (h : Described o x) (want : ValueType) :
    Described (typedOutline o want) (typed x want) := by
  unfold typedOutline typed
  rw [h.typ]
  split
  · exact ⟨rfl, h.reads, rfl⟩
  · exact h

/-- A member is outlined. -/
theorem reach_outlined {accessor : Span} {step : Env → Compiler PathStep} (hx : Outlined cx ox)
    (hstep : ∀ env scope, YieldsFrom (AtScope scope) (step env) fun _ => True) :
    Outlined (reach accessor cx step) (reachOutline ox) := by
  intro env want agg scope
  unfold reach
  refine (hx env .any agg scope).bind fun x hx => .ite (fun _ => errorAt_checks) fun _ => ?_
  refine (hstep env scope).bind fun step _ => ?_
  have hreads := hx.reads
  have hmember : ∀ (y : Expr) (path : List PathStep), y.reads = (ox scope .any).reads →
      Described (reachOutline ox scope want) (typed (.member y path) want) := by
    intro y path hy
    have hpath : Described ⟨.dynamic, (ox scope .any).reads, none⟩ (.member y path) := ⟨rfl, hy, rfl⟩
    exact typed_described hpath want
  split
  · exact .pure (hmember _ _ hreads)
  · exact .pure (hmember _ _ hreads)

/-- The argument of a numeric aggregate is a number. -/
theorem numberArg_outlined {fn : AggregateFunction} {arg : Arg} {o : Outlines} (h : Outlined arg.2 o) :
    YieldsFrom (AtScope scope) (numberArg fn arg env) fun x => x.typ = .number :=
  (h env .number none scope).bind fun _ _ => .ite (fun _ => errorAt_checks) fun hnumber =>
    .pure (by simpa using hnumber)

/-- A percentile needs no outline. -/
theorem percentArg_outlined {arg : Arg} {o : Outlines} (h : Outlined arg.2 o) :
    YieldsFrom (AtScope scope) (percentArg arg env) fun _ => True := by
  unfold percentArg
  refine (h env .number none scope).bind fun x _ => ?_
  split
  · exact .ite (fun _ => errorAt_checks) fun _ => .pure trivial
  · exact errorAt_checks

/-- The argument of min or max is outlined as a number or as what it is. -/
theorem extremeArg_outlined {fn : AggregateFunction} {arg : Arg} {o : Outlines}
    (h : Outlined arg.2 o) : YieldsFrom (AtScope scope) (extremeArg fn arg env)
      (Described ⟨if (o scope .any).typ == .dynamic then .number else (o scope .any).typ, [], none⟩) := by
  have hrest : ∀ (x : Expr) (t : ValueType), x.typ = t → YieldsFrom (AtScope scope) (do
      if x.typ == .bool then errorAt arg.1 s!"{fn.text} takes a number, a string or a time, not a bool"
      else return .aggregate fn (some x) 0 x.typ : Compiler Expr) (Described ⟨t, [], none⟩) :=
    fun x t ht => .ite (fun _ => errorAt_checks) fun _ => .pure ⟨ht, rfl, rfl⟩
  unfold extremeArg
  refine (h env .any none scope).bind fun x₀ hx₀ => ?_
  rw [← hx₀.typ]
  refine .ite (fun hdynamic => ?_) fun hknown => ?_
  · refine (numberArg_outlined h).bind fun x hx => ?_
    rw [if_pos hdynamic]
    exact hrest x _ hx
  · rw [if_neg hknown]
    exact hrest x₀ _ rfl

/-- Each argument is as its outline says. -/
abbrev ArgsOutlined (args : List Arg) (os : List Outlines) : Prop :=
  List.Forall₂ (fun arg o => Outlined arg.2 o) args os

/-- An aggregate is outlined. -/
theorem aggregate_outlined {span : Span} {fn : AggregateFunction} {args : List Arg}
    {os : List Outlines} {basis : RateBasis} (h : ArgsOutlined args os) :
    YieldsFrom (AtScope scope) (aggregate span fn args basis env)
      (Described ⟨aggregateType fn os scope, [], none⟩) := by
  have hnumber : ∀ (f : AggregateFunction) (x : Option Expr) (percent : ℚ), f ≠ .min → f ≠ .max →
      Described ⟨aggregateType f os scope, [], none⟩ (.aggregate f x percent .number) := by
    intro f x percent hmin hmax
    refine ⟨?_, rfl, rfl⟩
    unfold aggregateType
    split
    · exact absurd rfl hmin
    · exact absurd rfl hmax
    · rfl
  unfold aggregate
  split
  · exact .pure (hnumber _ _ _ (by simp) (by simp))
  · exact errorAt_checks
  · refine rateArgs_keeps.bind fun _ _ => .ite (fun _ => errorAt_checks) fun _ => .pure ?_
    exact hnumber _ _ _ (by simp) (by simp)
  · refine rateArgs_keeps.bind fun _ _ => .ite (fun _ => errorAt_checks) fun _ =>
      .ite (fun _ => errorAt_checks) fun _ => .pure ?_
    exact hnumber _ _ _ (by simp) (by simp)
  · cases h with | cons harg _ => ?_
    exact (condition_outlined harg).bind fun _ _ => .pure (hnumber _ _ _ (by simp) (by simp))
  · exact errorAt_checks
  · cases h with | cons harg hrest => ?_
    cases hrest with | cons hpercent _ => ?_
    refine (numberArg_outlined harg).bind fun _ _ => ?_
    refine (percentArg_outlined hpercent).bind fun _ _ => .pure ?_
    exact hnumber _ _ _ (by simp) (by simp)
  · exact errorAt_checks
  · cases h with | cons harg _ => ?_
    exact (numberArg_outlined harg).bind fun _ _ => .pure (hnumber _ _ _ (by simp) (by simp))
  · cases h with | cons harg _ => ?_
    exact (numberArg_outlined harg).bind fun _ _ => .pure (hnumber _ _ _ (by simp) (by simp))
  · cases h with | cons harg hrest => ?_
    cases hrest
    exact extremeArg_outlined harg
  · cases h with | cons harg hrest => ?_
    cases hrest
    exact extremeArg_outlined harg
  · cases h with | cons harg _ => ?_
    exact (harg env .any none scope).bind fun _ _ => .pure (hnumber _ _ _ (by simp) (by simp))
  · exact errorAt_checks

/-- What reads no more than its scope leaves it. -/
theorem keeps_scope {α : Type} {c : Compiler α} (h : Respects (AtScopes scope) c) :
    YieldsFrom (AtScope scope) c fun _ => True := by
  intro s a s' hs hrun
  have hscopes : AtScopes scope s s := ⟨hs, hs⟩
  obtain ⟨_, _, -, -, hend⟩ := Relates.exists_ok h hscopes hrun
  exact ⟨trivial, hend.1⟩

/-- The arguments of a function are outlined, each as the type it is read as. -/
theorem scalarArgs_outlined {types : List ValueType} {args : List Arg} {os : List Outlines}
    (h : ArgsOutlined args os) : YieldsFrom (AtScope scope) (scalarArgs env agg types args) fun xs =>
      List.Forall₂ Described (scalarOutlines scope types os) (xs.map Prod.fst) := by
  induction types generalizing args os with
  | nil => exact .pure .nil
  | cons t ts ih =>
    cases h with
    | nil => exact .pure .nil
    | @cons arg o args os harg hargs =>
      refine (harg env t agg scope).bind fun x hx => (ih hargs).bind fun xs hxs => .pure ?_
      exact .cons hx hxs

/-- Expressions read what their outlines say. -/
theorem reads_of_described {os : List Outline} {xs : List Expr} (h : List.Forall₂ Described os xs) :
    allReads xs = os.flatMap Outline.reads := by
  induction h with
  | nil => rfl
  | cons hx _ ih => rw [allReads, List.flatMap_cons, hx.reads, ih]

/-- The type of a call follows from its arguments' outlines. -/
theorem resultType_of_described {fn : ScalarFunction} {os : List Outline} {xs : List Expr}
    (h : List.Forall₂ Described os xs) : resultType fn xs = scalarType fn (os.map Outline.typ) := by
  have hhead : (xs.head?.map Expr.typ).getD .any = (os.map Outline.typ).head?.getD .any := by
    cases h with
    | nil => rfl
    | cons hx _ => exact hx.typ
  cases fn <;> first | exact hhead | rfl

/-- A scalar function is outlined. -/
theorem scalar_outlined {fname : String} {span : Span} {f : Function} {args : List Arg}
    {os : List Outlines} (h : ArgsOutlined args os) :
    YieldsFrom (AtScope scope) (scalar fname span f args env agg) (Described (scalarOutline f os scope)) := by
  unfold scalar
  refine .ite (fun _ => ?_) fun _ => ?_
  · split
    · exact errorAt_checks
    · exact errorAt_checks
  · refine (scalarArgs_outlined h).bind fun xs hxs => ?_
    refine (keeps_scope checkCall_respects).bind fun _ _ => ?_
    unfold scalarOutline
    split
    next fn hfn =>
      simp only [hfn]
      exact .pure ⟨resultType_of_described hxs, reads_of_described hxs, rfl⟩
    next x _ _ hfn =>
      simp only [hfn]
      generalize scalarOutlines scope f.args os = outlined at hxs
      cases hxs with
      | cons hx _ => exact .pure ⟨rfl, hx.reads, rfl⟩
    · exact errorAt_checks

/-- A test of emptiness is outlined. -/
theorem emptyTest_outlined {fname : String} {span : Span} {negated : Bool} {arg : Arg} {o : Outlines}
    (h : Outlined arg.2 o) : YieldsFrom (AtScope scope) (emptyTest fname span negated [arg] env agg)
      (Described ⟨.bool, (o scope .any).reads, none⟩) := by
  unfold emptyTest
  refine (h env .any agg scope).bind fun x hx => .pure ?_
  split
  · exact ⟨rfl, hx.reads, rfl⟩
  · exact ⟨rfl, hx.reads, rfl⟩

/-- A bin that chooses its size is outlined. -/
theorem binAuto_outlined {span : Span} {arg : Arg} {o : Outlines} (h : Outlined arg.2 o) :
    YieldsFrom (AtScope scope) (binAuto span [arg] env agg)
      (Described ⟨.time, (o scope .any).reads, none⟩) := by
  unfold binAuto
  refine (h env .any agg scope).bind fun x hx => .ite (fun _ => errorAt_checks) fun _ => .pure ?_
  refine ⟨rfl, ?_, rfl⟩
  simp [Expr.reads, allReads, hx.reads]

/-- A timespan needs no outline. -/
theorem timespan_outlined {arg : Arg} {o : Outlines} (h : Outlined arg.2 o) :
    YieldsFrom (AtScope scope) (timespan arg env) fun _ => True := by
  unfold timespan
  refine (h env .timespan none scope).bind fun x _ => ?_
  split
  · exact .pure trivial
  · exact errorAt_checks

/-- A call, whatever its function, is outlined. -/
theorem callOf_outlined {span : Span} {func : Syntax.Ident} {args : List Arg} {os : List Outlines}
    (h : ArgsOutlined args os) :
    YieldsFrom (AtScope scope) (callOf span func args env agg) (Described (callOutline func os scope)) := by
  rcases func with ⟨fname, fspan, quoted⟩
  unfold callOf
  simp only
  split
  · cases h with | cons harg hrest => ?_
    cases hrest
    exact (condition_outlined harg).bind fun x hx => .pure ⟨rfl, hx.reads, rfl⟩
  · exact errorAt_checks
  · cases h
    exact .pure ⟨rfl, rfl, rfl⟩
  · exact errorAt_checks
  · cases h with | cons harg hrest => ?_
    cases hrest
    exact (timespan_outlined harg).bind fun _ _ => .pure ⟨rfl, rfl, rfl⟩
  · exact errorAt_checks
  · cases h with
    | nil => exact errorAt_checks
    | cons harg hrest =>
      cases hrest with
      | nil => exact binAuto_outlined harg
      | cons _ _ => exact errorAt_checks
  next hnot hnow hago hauto _ _ _ =>
    have hcall : callOutline ⟨fname, fspan, quoted⟩ os scope = namedOutline fname os scope := by
      unfold callOutline
      split
      · exact (hnot ‹_›).elim
      · exact (hnow ‹_›).elim
      · exact (hago ‹_›).elim
      · exact (hauto ‹_›).elim
      · rfl
    rw [hcall]
    unfold namedOutline
    generalize emptyTests fname = test
    generalize aggregateFunctions fname = fn
    generalize scalarFunctions fname = f
    cases test with
    | some negated =>
      cases h with
      | nil => exact errorAt_checks
      | cons harg hrest =>
        cases hrest with
        | nil => exact emptyTest_outlined harg
        | cons _ _ => exact errorAt_checks
    | none =>
      cases fn with
      | some fn =>
        cases agg with
        | none => exact errorAt_checks
        | some basis => exact aggregate_outlined h
      | none =>
        cases f with
        | some f => exact scalar_outlined h
        | none => exact errorAt_checks

/-- A call, with what it says of itself, is outlined. -/
theorem call_outlined {span : Span} {func : Syntax.Ident} {args : List Arg} {os : List Outlines}
    (h : ArgsOutlined args os) :
    Outlined (call span func args) fun scope want => typedOutline (callOutline func os scope) want :=
  fun _ want _ _ => (callOf_outlined h).bind fun _ hx => .pure (typed_described hx want)

/-- A step of a path needs no outline. -/
theorem pathStep_outlined {span : Span} {c : Compile} {o : Outlines} (h : Outlined c o) (env : Env)
    (scope : Scope) : YieldsFrom (AtScope scope) (pathStep span c env) fun _ => True := by
  unfold pathStep
  refine (h env .any none scope).bind fun x _ => ?_
  split
  · exact .pure trivial
  · exact .ite (fun _ => .pure trivial) fun _ => errorAt_checks
  · exact errorAt_checks

mutual

/-- What an expression compiles to is as it is written. -/
theorem expr_outlined : ∀ e : Syntax.Expr, Outlined (expr e) (outline e)
  | .ident id => name_outlined id
  | .param _ => fun _ _ _ _ => .ite (fun _ => errorAt_checks) fun _ => errorAt_checks
  | .basicLit lit => literal_outlined lit
  | .binary x _ _ y => binary_outlined (expr_outlined x) (expr_outlined y)
  | .inList x _ _ _ first rest _ =>
    inList_outlined (expr_outlined x) (expr_outlined first) (exprs_outlined rest)
  | .unary _ _ x => unary_outlined (expr_outlined x)
  | .paren _ x _ => expr_outlined x
  | .call _ _ args _ => call_outlined (exprs_outlined args)
  | .member x _ _ => reach_outlined (expr_outlined x) fun _ _ => .pure trivial
  | .index x _ index _ => reach_outlined (expr_outlined x) (pathStep_outlined (expr_outlined index))

/-- Each of some expressions is outlined. -/
theorem exprs_outlined : ∀ es : List Syntax.Expr, ArgsOutlined (exprs es) (outlines es)
  | [] => .nil
  | x :: rest => .cons (expr_outlined x) (exprs_outlined rest)

end

end Described

section Summarize

variable {env : Env} {scope : Scope} {agg : Option RateBasis} {before : List Stage}

/-- Each column is as it is written. -/
abbrev ColumnsOutlined (scope : Scope) (exprs : List Syntax.NamedExpr) (columns : List NamedValue) : Prop :=
  List.Forall₂ (fun e col => Described (outline e.x scope .any) col.x) exprs columns

/-- Named columns are outlined by their expressions. -/
theorem namedColumns_outlined {i : ℕ} (exprs : List Syntax.NamedExpr) :
    YieldsFrom (AtScope scope) (namedColumns env agg i exprs) (ColumnsOutlined scope exprs) := by
  induction exprs generalizing i with
  | nil => exact .pure .nil
  | cons e rest ih =>
    unfold namedColumns
    refine (expr_outlined e.x env .any agg scope).bind fun x hx => ih.bind fun cols hcols => .pure ?_
    exact .cons hx hcols

/-- Columns are outlined by their expressions, and each has a name. -/
theorem columns_outlined (exprs : List Syntax.NamedExpr) :
    YieldsFrom (AtScope scope) (columns env exprs agg) fun cols =>
      ColumnsOutlined scope exprs cols ∧ ∀ col ∈ cols, col.x.Unnested := by
  have hnamed : YieldsFrom (AtScope scope) (namedColumns env agg 1 exprs) fun cols =>
      ColumnsOutlined scope exprs cols ∧ ∀ col ∈ cols, col.x.Unnested := by
    intro s cols s' hs hrun
    obtain ⟨houtlined, hscope⟩ := namedColumns_outlined exprs s cols s' hs hrun
    obtain ⟨hchecked, -⟩ := namedColumns_checks s cols s' hs hrun
    exact ⟨⟨houtlined, fun col hcol => (hchecked.1 col hcol).unnested⟩, hscope⟩
  have hunique : ∀ {seen : List String} {cols : List NamedValue},
      YieldsFrom (AtScope scope) (uniqueNames env seen cols) fun _ => True := by
    intro seen cols
    induction cols generalizing seen with
    | nil => exact .pure trivial
    | cons col rest ih => exact .ite (fun _ => errorAt_checks) fun _ => ih
  exact hnamed.bind fun cols hcols => hunique.bind fun _ _ => .pure hcols

/-- Whatever a summarize's columns read outside of aggregate functions is one of those it groups by. -/
def Grouped (columnsBy aggregates : List NamedValue) : Prop :=
  ∀ a ∈ aggregates, ∀ r ∈ a.x.reads, ∃ b ∈ columnsBy, b.x = r

/-- Whatever is named in a summarize's columns outside of aggregate functions is one of those after `by`,
named there alone and read as the same type. -/
def NamesGrouped (scope : Scope) (aggregates columnsBy : List Syntax.NamedExpr) : Prop :=
  ∀ a ∈ aggregates, ∀ r ∈ (outline a.x scope .any).reads,
    ∃ b ∈ columnsBy, (outline b.x scope .any).alone = some r

/-- What is grouped follows from the outlines of the columns as written. -/
theorem grouped_iff {aggs cols : List Syntax.NamedExpr} {columnsBy aggregates : List NamedValue}
    (hby : ColumnsOutlined scope cols columnsBy) (haggs : ColumnsOutlined scope aggs aggregates) :
    Grouped columnsBy aggregates ↔ NamesGrouped scope aggs cols := by
  have hfound : ∀ r : Expr, r.alone = some r →
      ((∃ b ∈ columnsBy, b.x = r) ↔ ∃ b ∈ cols, (outline b.x scope .any).alone = some r) := by
    intro r hr
    induction hby with
    | nil => simp
    | @cons e col cols columnsBy hcol _ ih =>
      have hsame : col.x = r ↔ (outline e.x scope .any).alone = some r := by
        rw [← hcol.alone]
        exact ⟨fun h => by rw [h, hr], eq_of_alone⟩
      simp [hsame, ih]
  unfold Grouped NamesGrouped
  induction haggs with
  | nil => simp
  | @cons e a aggs aggregates ha _ ih =>
    have hreads : (∀ r ∈ a.x.reads, ∃ b ∈ columnsBy, b.x = r) ↔
        ∀ r ∈ (outline e.x scope .any).reads, ∃ b ∈ cols, (outline b.x scope .any).alone = some r := by
      rw [← ha.reads]
      exact forall₂_congr fun r hr => hfound r (alone_of_mem_reads a.x r hr)
    rw [List.forall_mem_cons, List.forall_mem_cons]
    exact and_congr hreads ih

/-- What a summarize compiles to. -/
theorem summarize_outlined {pipe keyword : Span} {aggs cols : List Syntax.NamedExpr} :
    YieldsTo (AtScope scope) (stage env before (.summarizeStage pipe keyword aggs cols)) fun st _ =>
      ∀ columnsBy aggregates, st = .summarizeStage columnsBy aggregates →
        ColumnsOutlined scope cols columnsBy ∧ ColumnsOutlined scope aggs aggregates ∧
          ∀ a ∈ aggregates, a.x.Unnested := by
  simp only [stage]
  refine YieldsTo.bind (columns_outlined cols) fun columnsBy => YieldsTo.intro_pre fun hby => ?_
  refine YieldsTo.bind YieldsFrom.get fun s => YieldsTo.intro_pre fun _ => ?_
  refine YieldsTo.bind (columns_outlined aggs) fun aggregates => YieldsTo.intro_pre fun haggs => ?_
  have hmade : Yields (do
      checkAggregates aggregates aggs
      if columnsBy.isEmpty && aggregates.isEmpty then
        errorAt (Syntax.Stage.summarizeStage pipe keyword aggs cols).span
          "summarize needs a function such as count(), or by and columns"
      else
        uniqueNames env [] (columnsBy ++ aggregates)
        setScope ⟨false, columnsOf (columnsBy ++ aggregates)⟩
        return .summarizeStage columnsBy aggregates : Compiler Stage) fun st =>
      st = .summarizeStage columnsBy aggregates :=
    Yields.seq fun _ => Yields.ite (fun _ => Yields.throw) fun _ =>
      Yields.seq fun _ => Yields.seq fun _ => Yields.pure rfl
  intro s st s' _ hrun columnsBy' aggregates' hst
  obtain ⟨rfl, rfl⟩ := Stage.summarizeStage.inj ((hmade s st s' hrun).symm.trans hst)
  exact ⟨hby.1, haggs.1, haggs.2⟩

/-- A summarize that compiles reads nothing of a row, outside of aggregate functions, but what it groups
by, just when everything it names there is named alone after `by`, and read as the same type. No aggregate
of it stands inside another. -/
theorem summarize_groups_iff {pipe keyword : Span} {aggs cols : List Syntax.NamedExpr}
    {s s' : CompilerState} {columnsBy aggregates : List NamedValue}
    (h : (stage env before (.summarizeStage pipe keyword aggs cols)).run s =
      .ok (.summarizeStage columnsBy aggregates, s')) :
    (Grouped columnsBy aggregates ↔ NamesGrouped s.scope aggs cols) ∧
      ∀ a ∈ aggregates, a.x.Unnested := by
  obtain ⟨hby, haggs, hunnested⟩ := summarize_outlined s _ s' rfl h columnsBy aggregates rfl
  exact ⟨grouped_iff hby haggs, hunnested⟩

/-- `summarize count() + toint(service) by service`. -/
private def perService : Syntax.Stage :=
  .summarizeStage .null .null
    [⟨none, Sample.binary .plus (Sample.call "count" []) (Sample.call "toint" [Sample.field "service"])⟩]
    [⟨none, Sample.field "service"⟩]

/-- Whether a stage compiled as a summarize. -/
private def compilesToSummarize : Except Error (Stage × CompilerState) → Bool
  | .ok (.summarizeStage _ _, _) => true
  | _ => false

/-- A count by service groups nothing else. -/
theorem summarize_groups_iff_service :
    ∃ columnsBy aggregates s', (stage Sample.env [] perService).run ⟨[], .logScope, true, [], []⟩ =
      .ok (.summarizeStage columnsBy aggregates, s') ∧ Grouped columnsBy aggregates := by
  have hok : compilesToSummarize ((stage Sample.env [] perService).run ⟨[], .logScope, true, [], []⟩) = true := by
    decide +kernel
  unfold compilesToSummarize at hok
  split at hok
  next columnsBy aggregates s' hrun =>
    refine ⟨columnsBy, aggregates, s', hrun, (summarize_groups_iff hrun).1.2 ?_⟩
    intro a ha r hr
    obtain rfl := List.mem_singleton.1 ha
    have hreads : r ∈ [Expr.fieldRef "service" true .string] := hr
    rw [List.mem_singleton.1 hreads]
    exact ⟨_, List.mem_singleton_self _, rfl⟩
  · cases hok

/-- `summarize count() + duration`, which groups nothing. -/
private def countPlusDuration : Syntax.Query :=
  ⟨none, [.summarizeStage .null .null
    [⟨none, Sample.binary .plus (Sample.call "count" []) (Sample.field "duration")⟩] []]⟩

/-- Whether a Query's tail is a summarize without groups whose one column reads something. -/
private def readsUngrouped (q : Query) : Bool :=
  match q.tail with
  | [.summarizeStage [] [a]] => !a.x.reads.isEmpty
  | _ => false

/-- A count plus a duration reads the duration of no group, and it compiles. -/
theorem groups_false_duration :
    ∃ q, compileQuery Sample.env countPlusDuration = .ok q ∧
      ∃ columnsBy aggregates, .summarizeStage columnsBy aggregates ∈ q.tail ∧
        ¬Grouped columnsBy aggregates := by
  obtain ⟨q, hq, htest⟩ := @Sample.exists_of_compilesTo countPlusDuration readsUngrouped (by decide +kernel)
  refine ⟨q, hq, ?_⟩
  unfold readsUngrouped at htest
  split at htest
  next a htail =>
    refine ⟨[], [a], by simp [htail], fun hgrouped => ?_⟩
    cases hreads : a.x.reads with
    | nil => simp [hreads] at htest
    | cons r rest =>
      obtain ⟨b, hb, -⟩ := hgrouped a (by simp) r (by simp [hreads])
      cases hb
  · cases htest

end Summarize

end SolidTrace.LogQuery
