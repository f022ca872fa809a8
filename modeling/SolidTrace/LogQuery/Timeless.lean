import SolidTrace.LogQuery.Stages

/-!
# Queries that read no clock

A Query reads the time of its run by `now()` and `ago(…)` only. One that calls neither compiles to the
same Query whenever it is run.
-/

namespace SolidTrace.LogQuery

section Calls

namespace Syntax

mutual

/-- Whether an expression calls `now()` or `ago(…)`, at any depth. -/
def Expr.callsTime : Expr → Bool
  | .ident _ => false
  | .param _ => false
  | .basicLit _ => false
  | .binary x _ _ y => x.callsTime || y.callsTime
  | .inList x _ _ _ first rest _ => x.callsTime || first.callsTime || Expr.anyCallsTime rest
  | .unary _ _ x => x.callsTime
  | .paren _ x _ => x.callsTime
  | .call func _ args _ => func.name == "now" || func.name == "ago" || Expr.anyCallsTime args
  | .member x _ _ => x.callsTime
  | .index x _ step _ => x.callsTime || step.callsTime

def Expr.anyCallsTime : List Expr → Bool
  | [] => false
  | x :: rest => x.callsTime || Expr.anyCallsTime rest

end

/-- Whether an expression of a stage does. -/
def Stage.callsTime : Stage → Bool
  | .whereStage _ _ predicate => predicate.callsTime
  | .searchTextStage _ _ _ => false
  | .searchParamStage _ _ _ => false
  | .projectStage _ _ columns => columns.any (·.x.callsTime)
  | .extendStage _ _ columns => columns.any (·.x.callsTime)
  | .summarizeStage _ _ aggregates columnsBy =>
    aggregates.any (·.x.callsTime) || columnsBy.any (·.x.callsTime)
  | .sortStage _ _ keys => keys.any (·.x.callsTime)
  | .takeStage _ _ _ => false
  | .topStage _ _ _ key => key.x.callsTime
  | .countStage _ _ => false
  | .distinctStage _ _ columns => columns.any (·.x.callsTime)

/-- Whether a Query does. -/
def Query.callsTime (tree : Query) : Bool := tree.stages.any Stage.callsTime

end Syntax

/-- What a Query is compiled against in a run at a time. -/
def Env.runAt (env : Env) (t : ℤ) : Env := { env with bounds := { env.bounds with now := t }, clock := t }

/-- An expression compiles alike in runs at any times. -/
def Timeless (c : Compile) : Prop := ∀ env t want agg, c (env.runAt t) want agg = c env want agg

end Calls

section Expressions

variable {env : Env} {t : ℤ} {agg : Option RateBasis} {cx cy : Compile} {args : List Arg}

/-- A condition compiles to the same whenever it is compiled, where its expression does. -/
theorem condition_timeless (h : Timeless cx) (span : Span) :
    condition cx span (env.runAt t) = condition cx span env := by
  simp only [condition, h env t]

/-- A sign or a negation compiles to the same whenever it is compiled. -/
theorem unary_timeless (span : Span) (op : Syntax.Sign) (e : Syntax.Expr) (h : Timeless cx) :
    Timeless (unary span op e cx) := by
  intro env t want agg
  simp only [unary, h env t]
  rfl

/-- The operand of a text test compiles to the same whenever it is compiled. -/
theorem textOperand_timeless (span opSpan : Span) (text : TextOp) (h : Timeless cx) :
    textOperand span opSpan text cx (env.runAt t) agg = textOperand span opSpan text cx env agg := by
  simp only [textOperand, h env t]
  rfl

/-- A text test compiles to the same whenever it is compiled. -/
theorem textTest_timeless (x : Syntax.Expr) (opSpan : Span) (text : TextOp) (y : Syntax.Expr)
    (h : Timeless cx) : Timeless (textTest x opSpan text y cx) := by
  intro env t want agg
  simp only [textTest, textOperand_timeless _ _ _ h]
  rfl

/-- A comparison compiles to the same whenever it is compiled. -/
theorem compare_timeless (span : Span) (x : Syntax.Expr) (op : CompareOp) (y : Syntax.Expr)
    (hx : Timeless cx) (hy : Timeless cy) : Timeless (compare span x op y cx cy) := by
  intro env t want agg
  simp only [compare, hx env t, hy env t]

/-- Arithmetic compiles to the same whenever it is compiled. -/
theorem arith_timeless (span : Span) (op : ArithOp) (hx : Timeless cx) (hy : Timeless cy) :
    Timeless (arith span op cx cy) := by
  intro env t want agg
  simp only [arith, hx env t, hy env t]

/-- An element of an in compiles to the same whenever it is compiled. -/
theorem inElem_timeless (span : Span) (soFar : Option Expr) (hx : Timeless cx) (hy : Timeless cy) :
    inElem cx span cy (env.runAt t) agg soFar = inElem cx span cy env agg soFar := by
  simp only [inElem, hx env t, hy env t]

/-- More elements of an in compile to the same whenever they are compiled. -/
theorem inElems_timeless (hx : Timeless cx) (hargs : ∀ arg ∈ args, Timeless arg.2) (m : Expr) :
    inElems cx (env.runAt t) agg m args = inElems cx env agg m args := by
  induction args generalizing m with
  | nil => rfl
  | cons arg rest ih =>
    obtain ⟨harg, hrest⟩ := List.forall_mem_cons.1 hargs
    simp only [inElems, inElem_timeless _ _ hx harg, ih hrest]

/-- An in compiles to the same whenever it is compiled. -/
theorem inList_timeless (negated : Bool) {first : Span × Compile} (hx : Timeless cx)
    (hfirst : Timeless first.2) (hargs : ∀ arg ∈ args, Timeless arg.2) :
    Timeless (inList negated cx first args) := by
  intro env t want agg
  simp only [inList, inElem_timeless _ _ hx hfirst, inElems_timeless hx hargs]

/-- A binary operation compiles to the same whenever it is compiled. -/
theorem binary_timeless (x : Syntax.Expr) (opSpan : Span) (op : Syntax.BinaryOp) (y : Syntax.Expr)
    (hx : Timeless cx) (hy : Timeless cy) : Timeless (binary x opSpan op y cx cy) := by
  intro env t want agg
  simp only [binary, condition_timeless hx, condition_timeless hy,
    arith_timeless _ _ hx hy env t, compare_timeless _ _ _ _ hx hy env t,
    textTest_timeless _ _ _ _ hx env t]

/-- A step of a path compiles to the same whenever it is compiled. -/
theorem pathStep_timeless (span : Span) (h : Timeless cx) :
    pathStep span cx (env.runAt t) = pathStep span cx env := by
  simp only [pathStep, h env t]

/-- A member compiles to the same whenever it is compiled. -/
theorem reach_timeless (accessor : Span) {step : Env → Compiler PathStep} (h : Timeless cx)
    (hstep : ∀ env t, step (env.runAt t) = step env) : Timeless (reach accessor cx step) := by
  intro env t want agg
  simp only [reach, h env t, hstep env t]

/-- The argument of a numeric aggregate compiles to the same whenever it is compiled. -/
theorem numberArg_timeless (fn : AggregateFunction) {arg : Arg} (h : Timeless arg.2) :
    numberArg fn arg (env.runAt t) = numberArg fn arg env := by
  simp only [numberArg, h env t]

/-- The argument of min or max compiles to the same whenever it is compiled. -/
theorem extremeArg_timeless (fn : AggregateFunction) {arg : Arg} (h : Timeless arg.2) :
    extremeArg fn arg (env.runAt t) = extremeArg fn arg env := by
  simp only [extremeArg, h env t, numberArg_timeless _ h]

/-- A percentile compiles to the same whenever it is compiled. -/
theorem percentArg_timeless {arg : Arg} (h : Timeless arg.2) :
    percentArg arg (env.runAt t) = percentArg arg env := by
  simp only [percentArg, h env t]

/-- An aggregate compiles to the same whenever it is compiled. -/
theorem aggregate_timeless (span : Span) (fn : AggregateFunction) (basis : RateBasis)
    (h : ∀ arg ∈ args, Timeless arg.2) :
    aggregate span fn args basis (env.runAt t) = aggregate span fn args basis env := by
  unfold aggregate
  split
  case h_5 arg => simp only [condition_timeless (h arg (by simp))]
  case h_7 value percent =>
    simp only [numberArg_timeless _ (h value (by simp)), percentArg_timeless (h percent (by simp))]
  case h_9 arg => simp only [numberArg_timeless _ (h arg (by simp))]
  case h_10 arg => simp only [numberArg_timeless _ (h arg (by simp))]
  case h_11 arg => exact extremeArg_timeless _ (h arg (by simp))
  case h_12 arg => exact extremeArg_timeless _ (h arg (by simp))
  case h_13 arg => simp only [h arg (by simp) env t]
  all_goals rfl

/-- The arguments of a function compile to the same whenever they are compiled. -/
theorem scalarArgs_timeless (ts : List ValueType) (h : ∀ arg ∈ args, Timeless arg.2) :
    scalarArgs (env.runAt t) agg ts args = scalarArgs env agg ts args := by
  induction ts generalizing args with
  | nil => rfl
  | cons first ts ih =>
    cases args with
    | nil => rfl
    | cons arg rest =>
      obtain ⟨harg, hrest⟩ := List.forall_mem_cons.1 h
      simp only [scalarArgs, harg env t, ih hrest]

/-- A scalar function compiles to the same whenever it is compiled. -/
theorem scalar_timeless (name : String) (span : Span) (f : Function) (h : ∀ arg ∈ args, Timeless arg.2) :
    scalar name span f args (env.runAt t) agg = scalar name span f args env agg := by
  simp only [scalar, scalarArgs_timeless _ h]
  rfl

/-- A test of emptiness compiles to the same whenever it is compiled. -/
theorem emptyTest_timeless (name : String) (span : Span) (negated : Bool)
    (h : ∀ arg ∈ args, Timeless arg.2) :
    emptyTest name span negated args (env.runAt t) agg = emptyTest name span negated args env agg := by
  unfold emptyTest
  split
  case h_1 arg => simp only [h arg (by simp) env t]
  case h_2 => rfl

/-- A bin that chooses its size follows the range asked for and not the time. -/
theorem binAuto_timeless (span : Span) (h : ∀ arg ∈ args, Timeless arg.2) :
    binAuto span args (env.runAt t) agg = binAuto span args env agg := by
  unfold binAuto
  split
  case h_1 arg =>
    simp only [h arg (by simp) env t]
    rfl
  case h_2 => rfl

/-- A call of a function other than `now` and `ago` compiles alike where its arguments do. -/
theorem callOf_timeless (span : Span) {func : Syntax.Ident} (hnow : func.name ≠ "now")
    (hago : func.name ≠ "ago") (h : ∀ arg ∈ args, Timeless arg.2) :
    callOf span func args (env.runAt t) agg = callOf span func args env agg := by
  have hnot (arg : Arg) (harg : Timeless arg.2) :
      condition arg.2 arg.1 { env.runAt t with inNot := true } =
        condition arg.2 arg.1 { env with inNot := true } :=
    @condition_timeless { env with inNot := true } t _ harg arg.1
  unfold callOf
  split
  case h_1 arg _ => simp only [hnot arg (h arg (by simp))]
  case h_2 => rfl
  case h_3 hname => exact absurd hname hnow
  case h_4 hname _ => exact absurd hname hnow
  case h_5 hname => exact absurd hname hago
  case h_6 hname _ => exact absurd hname hago
  case h_7 => exact binAuto_timeless _ h
  case h_8 =>
    simp only [emptyTest_timeless _ _ _ h, aggregate_timeless _ _ _ h, scalar_timeless _ _ _ h]
    rfl

/-- A call of anything but now() and ago() compiles to the same whenever it is compiled. -/
theorem call_timeless (span : Span) {func : Syntax.Ident} (hnow : func.name ≠ "now")
    (hago : func.name ≠ "ago") (h : ∀ arg ∈ args, Timeless arg.2) : Timeless (call span func args) := by
  intro env t want agg
  simp only [call, callOf_timeless span hnow hago h]

mutual

/-- An expression that calls neither `now` nor `ago` compiles alike at any times. -/
theorem expr_timeless : ∀ e : Syntax.Expr, e.callsTime = false → Timeless (expr e)
  | .ident _, _ => fun _ _ _ _ => rfl
  | .param _, _ => fun _ _ _ _ => rfl
  | .basicLit _, _ => fun _ _ _ _ => rfl
  | .binary x opSpan op y, h => by
    simp only [Syntax.Expr.callsTime, Bool.or_eq_false_iff] at h
    exact binary_timeless x opSpan op y (expr_timeless x h.1) (expr_timeless y h.2)
  | .inList x _ negated _ first rest _, h => by
    simp only [Syntax.Expr.callsTime, Bool.or_eq_false_iff] at h
    exact inList_timeless negated (expr_timeless x h.1.1) (expr_timeless first h.1.2)
      (exprs_timeless rest h.2)
  | .unary _ op x, h => unary_timeless _ op x (expr_timeless x h)
  | .paren _ x _, h => expr_timeless x h
  | .call func _ args _, h => by
    simp only [Syntax.Expr.callsTime, Bool.or_eq_false_iff, beq_eq_false_iff_ne] at h
    exact call_timeless _ h.1.1 h.1.2 (exprs_timeless args h.2)
  | .member x _ _, h => reach_timeless _ (expr_timeless x h) fun _ _ => rfl
  | .index x _ step _, h => by
    simp only [Syntax.Expr.callsTime, Bool.or_eq_false_iff] at h
    exact reach_timeless _ (expr_timeless x h.1) fun _ _ =>
      pathStep_timeless _ (expr_timeless step h.2)

/-- Each of some expressions without now() and ago() compiles to the same whenever it is compiled.
-/
theorem exprs_timeless : ∀ es : List Syntax.Expr, Syntax.Expr.anyCallsTime es = false →
    ∀ arg ∈ exprs es, Timeless arg.2
  | [], _, _, harg => absurd harg List.not_mem_nil
  | x :: rest, h, arg, harg => by
    simp only [Syntax.Expr.anyCallsTime, Bool.or_eq_false_iff] at h
    cases List.mem_cons.1 harg with
    | inl heq => exact heq ▸ expr_timeless x h.1
    | inr hrest => exact exprs_timeless rest h.2 arg hrest

end

end Expressions

section Stages

variable {env : Env} {t : ℤ} {agg : Option RateBasis}

/-- A filter for one value compiles to the same whenever it is compiled. -/
theorem filterValue_timeless (text : Option TextOp) (negated : Bool) {side : Compile} (h : Timeless side)
    (x : Expr) (v : String) :
    filterValue (env.runAt t) text negated side x v = filterValue env text negated side x v := by
  simp only [filterValue, h env t]
  rfl

/-- A filter for each value compiles to the same whenever it is compiled. -/
theorem filterValues_timeless (text : Option TextOp) (negated : Bool) {side : Compile}
    (h : Timeless side) (x all : Expr) (values : List String) :
    filterValues (env.runAt t) text negated side x all values =
      filterValues env text negated side x all values := by
  induction values generalizing all with
  | nil => rfl
  | cons v rest ih => simp only [filterValues, filterValue_timeless _ _ h, ih]

/-- A filter of a side without now() and ago() compiles to the same whenever it is compiled. -/
theorem filter_timeless (opSpan : Span) (op : Syntax.BinaryOp) (p : Syntax.Param) {side : Syntax.Expr}
    (h : side.callsTime = false) : filter (env.runAt t) opSpan op p side = filter env opSpan op p side := by
  have hside := expr_timeless side h
  unfold filter
  split
  · rfl
  · simp only [textOperand_timeless _ _ _ hside, hside env t, filterValue_timeless _ _ hside,
      filterValues_timeless _ _ hside]
    rfl

/-- What a filter is compared with calls neither where the comparison doesn't. -/
theorem filterSides_timeless {x y side : Syntax.Expr} {op : Syntax.BinaryOp} {p : Syntax.Param}
    (hsides : filterSides x op y = some (p, side)) (hx : x.callsTime = false) (hy : y.callsTime = false) :
    side.callsTime = false := by
  unfold filterSides at hsides
  split at hsides
  case h_1 => cases hsides
  case h_2 => cases hsides; exact hx
  case h_3 => cases hsides; exact hy
  case h_4 => cases hsides

/-- A predicate without now() and ago() compiles to the same whenever it is compiled. -/
theorem predicate_timeless (e : Syntax.Expr) (h : e.callsTime = false) :
    predicate (env.runAt t) e = predicate env e := by
  refine predicate_induct env (motive := fun e c => e.callsTime = false → predicate (env.runAt t) e = c)
    ?_ ?_ ?_ ?_ ?_ ?_ e h
  · intro _ x _ ih h
    exact ih h
  · intro x opSpan y ihx ihy h
    simp only [Syntax.Expr.callsTime, Bool.or_eq_false_iff] at h
    rw [predicate, ihx h.1, ihy h.2]
  · intro x opSpan y ihx ihy h
    simp only [Syntax.Expr.callsTime, Bool.or_eq_false_iff] at h
    rw [predicate, ihx h.1, ihy h.2]
  · intro x opSpan op y hand hor p side hsides h
    simp only [Syntax.Expr.callsTime, Bool.or_eq_false_iff] at h
    rw [predicate_filter hand hor hsides]
    exact filter_timeless opSpan op p (filterSides_timeless hsides h.1 h.2)
  · intro x opSpan op y hand hor hsides h
    rw [predicate_plain hand hor hsides]
    exact condition_timeless (expr_timeless _ h) _
  · intro e hparen hbinary h
    cases e with
    | paren => exact absurd rfl (hparen _ _ _)
    | binary => exact absurd rfl (hbinary _ _ _ _)
    | _ => exact condition_timeless (expr_timeless _ h) _

/-- Columns without now() and ago() are named and compiled to the same. -/
theorem namedColumns_timeless (i : ℕ) (cols : List Syntax.NamedExpr)
    (h : cols.any (·.x.callsTime) = false) :
    namedColumns (env.runAt t) agg i cols = namedColumns env agg i cols := by
  induction cols generalizing i with
  | nil => rfl
  | cons col rest ih =>
    rw [List.any_cons, Bool.or_eq_false_iff] at h
    simp only [namedColumns, expr_timeless _ h.1 env t, ih _ h.2]
    rfl

/-- Whether names are unique does not depend on the time. -/
theorem uniqueNames_timeless (seen : List String) (cols : List NamedValue) :
    uniqueNames (env.runAt t) seen cols = uniqueNames env seen cols := by
  induction cols generalizing seen with
  | nil => rfl
  | cons col rest ih =>
    simp only [uniqueNames, ih]
    rfl

/-- Columns without now() and ago() compile to the same whenever they are compiled. -/
theorem columns_timeless (cols : List Syntax.NamedExpr) (h : cols.any (·.x.callsTime) = false) :
    columns (env.runAt t) cols agg = columns env cols agg := by
  simp only [columns, namedColumns_timeless _ _ h, uniqueNames_timeless]

/-- A sort key without now() and ago() compiles to the same whenever it is compiled. -/
theorem sortKey_timeless (key : Syntax.SortKey) (h : key.x.callsTime = false) :
    sortKey (env.runAt t) key = sortKey env key := by
  simp only [sortKey, expr_timeless _ h env t]

/-- Sort keys without now() and ago() compile to the same whenever they are compiled. -/
theorem sortKeys_timeless (keys : List Syntax.SortKey) (h : keys.any (·.x.callsTime) = false) :
    keys.mapM (sortKey (env.runAt t)) = keys.mapM (sortKey env) := by
  induction keys with
  | nil => rfl
  | cons key rest ih =>
    rw [List.any_cons, Bool.or_eq_false_iff] at h
    simp only [List.mapM_cons, sortKey_timeless _ h.1, ih h.2]

/-- A stage that calls neither compiles alike at any times. -/
theorem stage_timeless (before : List Stage) (s : Syntax.Stage) (h : s.callsTime = false) :
    stage (env.runAt t) before s = stage env before s := by
  cases s with
  | whereStage _ _ predicate => simp only [stage, predicate_timeless _ h]
  | searchTextStage => rfl
  | searchParamStage => rfl
  | projectStage _ _ cols => simp only [stage, columns_timeless _ h]
  | extendStage _ _ cols => simp only [stage, columns_timeless _ h]
  | summarizeStage _ _ aggs cols =>
    simp only [Syntax.Stage.callsTime, Bool.or_eq_false_iff] at h
    simp only [stage, columns_timeless _ h.1, columns_timeless _ h.2, uniqueNames_timeless]
  | sortStage _ _ keys => simp only [stage, sortKeys_timeless _ h]
  | takeStage => rfl
  | topStage _ _ _ key => simp only [stage, sortKey_timeless _ h]
  | countStage => rfl
  | distinctStage _ _ cols => simp only [stage, columns_timeless _ h]

/-- A head without now() and ago() compiles to the same whenever it is compiled. -/
theorem headStages_timeless (stages : List Syntax.Stage) (h : ∀ s ∈ stages, s.callsTime = false) :
    headStages (env.runAt t) stages = headStages env stages := by
  induction stages with
  | nil => rfl
  | cons s rest ih =>
    obtain ⟨hs, hrest⟩ := List.forall_mem_cons.1 h
    simp only [headStages, stage_timeless _ _ hs, ih hrest]

/-- A tail without now() and ago() compiles to the same whenever it is compiled. -/
theorem tailStages_timeless (before : List Stage) (stages : List Syntax.Stage)
    (h : ∀ s ∈ stages, s.callsTime = false) :
    tailStages (env.runAt t) before stages = tailStages env before stages := by
  induction stages generalizing before with
  | nil => rfl
  | cons s rest ih =>
    obtain ⟨hs, hrest⟩ := List.forall_mem_cons.1 h
    simp only [tailStages, stage_timeless _ _ hs, ih _ hrest]

/-- A Query that calls neither `now` nor `ago` compiles to the same Query whenever it is run. -/
theorem compileQuery_timeless {tree : Syntax.Query} (h : tree.callsTime = false) :
    compileQuery (env.runAt t) tree = compileQuery env tree := by
  have hstages : ∀ s ∈ tree.stages, s.callsTime = false := by
    intro s hs
    exact Bool.eq_false_iff.2 (List.any_eq_false.1 h s hs)
  have htail (range : ℤ × ℤ) :
      tailStages { env.runAt t with
        bounds := { (env.runAt t).bounds with fromTime := range.1, toTime := range.2 } } []
          (tree.stages.dropWhile isHead) =
        tailStages { env with bounds := { env.bounds with fromTime := range.1, toTime := range.2 } } []
          (tree.stages.dropWhile isHead) :=
    @tailStages_timeless { env with bounds := { env.bounds with fromTime := range.1, toTime := range.2 } }
      t [] _ fun s hs => hstages s ((List.dropWhile_sublist isHead).mem hs)
  have hhead := @headStages_timeless env t _ fun s hs => hstages s ((List.takeWhile_sublist isHead).mem hs)
  simp only [compileQuery, compileTree, hhead, htail]
  rfl

end Stages

end SolidTrace.LogQuery
