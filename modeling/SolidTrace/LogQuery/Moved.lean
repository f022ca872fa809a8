import SolidTrace.LogQuery.Syntax

/-!
# Trees in other places

The tree of a text that is part of another one has other places there, and is otherwise the same.
-/

namespace SolidTrace.LogQuery.Syntax

section Maps

variable (f : Span → Span)

def Ident.mapSpans (id : Ident) : Ident := { id with span := f id.span }

def Param.mapSpans (p : Param) : Param := { p with span := f p.span }

def BasicLit.mapSpans (lit : BasicLit) : BasicLit := { lit with span := f lit.span }

mutual

/-- The expression with each place in its tree changed. -/
def Expr.mapSpans : Expr → Expr
  | .ident id => .ident (id.mapSpans f)
  | .param p => .param (p.mapSpans f)
  | .basicLit lit => .basicLit (lit.mapSpans f)
  | .binary x opSpan op y => .binary x.mapSpans (f opSpan) op y.mapSpans
  | .inList x opSpan negated lparen first rest rparen =>
    .inList x.mapSpans (f opSpan) negated (f lparen) first.mapSpans (Expr.mapSpansAll rest) (f rparen)
  | .unary opSpan op x => .unary (f opSpan) op x.mapSpans
  | .paren lparen x rparen => .paren (f lparen) x.mapSpans (f rparen)
  | .call func lparen args rparen =>
    .call (func.mapSpans f) (f lparen) (Expr.mapSpansAll args) (f rparen)
  | .member x dot name => .member x.mapSpans (f dot) (name.mapSpans f)
  | .index x lbrack i rbrack => .index x.mapSpans (f lbrack) i.mapSpans (f rbrack)

def Expr.mapSpansAll : List Expr → List Expr
  | [] => []
  | x :: rest => x.mapSpans :: Expr.mapSpansAll rest

end

def NamedExpr.mapSpans (e : NamedExpr) : NamedExpr := ⟨e.name.map (·.mapSpans f), e.x.mapSpans f⟩

def SortKey.mapSpans (k : SortKey) : SortKey := ⟨k.x.mapSpans f, k.asc, k.nulls, f k.endSpan⟩

/-- The stage with its pipe at a place and each other place in its tree changed. -/
def Stage.moved (pipe : Span) : Stage → Stage
  | .whereStage _ keyword predicate => .whereStage pipe (f keyword) (predicate.mapSpans f)
  | .searchTextStage _ keyword term => .searchTextStage pipe (f keyword) (term.mapSpans f)
  | .searchParamStage _ keyword term => .searchParamStage pipe (f keyword) (term.mapSpans f)
  | .projectStage _ keyword columns => .projectStage pipe (f keyword) (columns.map (·.mapSpans f))
  | .extendStage _ keyword columns => .extendStage pipe (f keyword) (columns.map (·.mapSpans f))
  | .summarizeStage _ keyword aggregates columnsBy =>
    .summarizeStage pipe (f keyword) (aggregates.map (·.mapSpans f)) (columnsBy.map (·.mapSpans f))
  | .sortStage _ keyword keys => .sortStage pipe (f keyword) (keys.map (·.mapSpans f))
  | .takeStage _ keyword count => .takeStage pipe (f keyword) (count.mapSpans f)
  | .topStage _ keyword count key => .topStage pipe (f keyword) (count.mapSpans f) (key.mapSpans f)
  | .countStage _ keyword => .countStage pipe (f keyword)
  | .distinctStage _ keyword columns => .distinctStage pipe (f keyword) (columns.map (·.mapSpans f))

end Maps

/-- A stage is another one at other places. -/
def Stage.MovesTo (s s' : Stage) : Prop := ∃ f pipe, s' = s.moved f pipe

mutual

/-- Moving no span changes nothing. -/
theorem Expr.mapSpans_id : ∀ x : Expr, x.mapSpans id = x
  | .ident _ => rfl
  | .param _ => rfl
  | .basicLit _ => rfl
  | .binary x _ _ y => by rw [Expr.mapSpans, x.mapSpans_id, y.mapSpans_id]; rfl
  | .inList x _ _ _ first rest _ => by
    rw [Expr.mapSpans, x.mapSpans_id, first.mapSpans_id, Expr.mapSpansAll_id rest]
    rfl
  | .unary _ _ x => by rw [Expr.mapSpans, x.mapSpans_id]; rfl
  | .paren _ x _ => by rw [Expr.mapSpans, x.mapSpans_id]; rfl
  | .call _ _ args _ => by rw [Expr.mapSpans, Expr.mapSpansAll_id args]; rfl
  | .member x _ _ => by rw [Expr.mapSpans, x.mapSpans_id]; rfl
  | .index x _ i _ => by rw [Expr.mapSpans, x.mapSpans_id, i.mapSpans_id]; rfl

/-- Moving no span of some expressions changes nothing. -/
theorem Expr.mapSpansAll_id : ∀ xs : List Expr, Expr.mapSpansAll id xs = xs
  | [] => rfl
  | x :: rest => by rw [Expr.mapSpansAll, x.mapSpans_id, Expr.mapSpansAll_id rest]

end

end SolidTrace.LogQuery.Syntax
