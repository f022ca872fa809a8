import Mathlib.Data.Int.Order.Basic

/-!
# A Query's syntax tree

What the parser makes of a Query's text: its stages and expressions, each node with its place in
the text. The list after `in` and `!in` has its own place in the tree, so that no other operator
is followed by one and no list is empty.
-/

namespace SolidTrace.LogQuery

/-- A run of bytes of a Query's text. -/
structure Span where
  start : ℤ
  stop : ℤ
deriving DecidableEq, Repr

namespace Span

def null : Span := ⟨-1, -1⟩

/-- Whether the span points into the text. -/
def isValid (s : Span) : Bool := s.start ≥ 0 && s.stop ≥ s.start

/-- The span from the first to the last of the valid ones. -/
def union (spans : List Span) : Span :=
  spans.foldl (fun u s =>
    if !s.isValid then u
    else if !u.isValid then s
    else ⟨min u.start s.start, max u.stop s.stop⟩) null

end Span

/-- A mistake in a Query, at a span of its text. -/
structure Error where
  span : Span
  message : String
deriving DecidableEq, Repr

namespace Syntax

/-- A name. `quoted` is set for one written as `['…']`. -/
structure Ident where
  name : String
  span : Span
  quoted : Bool
deriving DecidableEq, Repr

/-- A Dashboard filter, `$name`. -/
structure Param where
  name : String
  span : Span
deriving DecidableEq, Repr

inductive LiteralKind where
  | string
  | number
  | bool
  | timespan
  | dateTime
deriving DecidableEq, Repr

/-- A literal, with its value as written. -/
structure BasicLit where
  span : Span
  kind : LiteralKind
  value : String
deriving DecidableEq, Repr

inductive Sign where
  | plus
  | minus
deriving DecidableEq, Repr

/-- A binary operator other than `in` and `!in`. -/
inductive BinaryOp where
  | and | or
  | plus | minus | star | slash | mod
  | eq | ne | lt | le | gt | ge
  | eqCI | neCI
  | contains | notContains | containsCS | notContainsCS
  | startsWith | notStartsWith | startsWithCS | notStartsWithCS
  | matchesRegex
deriving DecidableEq, Repr

inductive Expr where
  | ident (id : Ident)
  | param (p : Param)
  | basicLit (lit : BasicLit)
  | binary (x : Expr) (opSpan : Span) (op : BinaryOp) (y : Expr)
  /-- `x in (first, …)`, or `x !in (first, …)`. -/
  | inList (x : Expr) (opSpan : Span) (negated : Bool) (lparen : Span) (first : Expr)
      (rest : List Expr) (rparen : Span)
  | unary (opSpan : Span) (op : Sign) (x : Expr)
  | paren (lparen : Span) (x : Expr) (rparen : Span)
  | call (func : Ident) (lparen : Span) (args : List Expr) (rparen : Span)
  | member (x : Expr) (dot : Span) (name : Ident)
  | index (x : Expr) (lbrack : Span) (index : Expr) (rbrack : Span)

def Expr.span : Expr → Span
  | .ident id => id.span
  | .param p => p.span
  | .basicLit lit => lit.span
  | .binary x opSpan _ y => .union [x.span, opSpan, y.span]
  | .inList x opSpan _ lparen _ _ rparen => .union [x.span, opSpan, .union [lparen, rparen]]
  | .unary opSpan _ x => .union [opSpan, x.span]
  | .paren lparen x rparen => .union [lparen, x.span, rparen]
  | .call func lparen _ rparen => .union [func.span, lparen, rparen]
  | .member x dot name => .union [x.span, dot, name.span]
  | .index x lbrack _ rbrack => .union [x.span, lbrack, rbrack]

/-- A column of project, extend, summarize or distinct. -/
structure NamedExpr where
  name : Option Ident
  x : Expr

def NamedExpr.span (e : NamedExpr) : Span :=
  match e.name with
  | none => e.x.span
  | some id => .union [id.span, e.x.span]

inductive Nulls where
  | first
  | last
deriving DecidableEq, Repr

/-- One key of sort or top. -/
structure SortKey where
  x : Expr
  asc : Bool
  nulls : Option Nulls
  endSpan : Span

/-- A stage, with the pipe before it and its keyword. -/
inductive Stage where
  | whereStage (pipe keyword : Span) (predicate : Expr)
  | searchTextStage (pipe keyword : Span) (term : BasicLit)
  | searchParamStage (pipe keyword : Span) (term : Param)
  | projectStage (pipe keyword : Span) (columns : List NamedExpr)
  | extendStage (pipe keyword : Span) (columns : List NamedExpr)
  | summarizeStage (pipe keyword : Span) (aggregates columnsBy : List NamedExpr)
  | sortStage (pipe keyword : Span) (keys : List SortKey)
  | takeStage (pipe keyword : Span) (count : BasicLit)
  | topStage (pipe keyword : Span) (count : BasicLit) (key : SortKey)
  | countStage (pipe keyword : Span)
  | distinctStage (pipe keyword : Span) (columns : List NamedExpr)

def namedSpan (columns : List NamedExpr) : Span :=
  match columns.head?, columns.getLast? with
  | some first, some last => .union [first.span, last.span]
  | _, _ => .null

def SortKey.span (k : SortKey) : Span := .union [k.x.span, k.endSpan]

def Stage.span : Stage → Span
  | .whereStage pipe keyword predicate => .union [pipe, keyword, predicate.span]
  | .searchTextStage pipe keyword term => .union [pipe, keyword, term.span]
  | .searchParamStage pipe keyword term => .union [pipe, keyword, term.span]
  | .projectStage pipe keyword columns => .union [pipe, keyword, namedSpan columns]
  | .extendStage pipe keyword columns => .union [pipe, keyword, namedSpan columns]
  | .summarizeStage pipe keyword aggregates columnsBy =>
    .union [pipe, keyword, namedSpan aggregates, namedSpan columnsBy]
  | .sortStage pipe keyword keys =>
    match keys.getLast? with
    | some key => .union [.union [pipe, keyword], key.span]
    | none => .union [pipe, keyword]
  | .takeStage pipe keyword count => .union [pipe, keyword, count.span]
  | .topStage pipe keyword _ key => .union [pipe, keyword, key.span]
  | .countStage pipe keyword => .union [pipe, keyword]
  | .distinctStage pipe keyword columns => .union [pipe, keyword, namedSpan columns]

/-- A whole Query: its source, if it names one, and its stages. -/
structure Query where
  source : Option Ident
  stages : List Stage

end Syntax

end SolidTrace.LogQuery
