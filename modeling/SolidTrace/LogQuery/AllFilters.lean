import SolidTrace.LogQuery.Filters
import SolidTrace.LogQuery.Writable

/-!
# Filters set to All

A comparison with a filter set to All, where a row must meet it, leaves nothing behind but the filter's
name: the Query compiles to what it does without the comparison.
-/

namespace SolidTrace.LogQuery

section Stages

/-- States that differ in the filters named, at most. -/
structure ButParameters (s t : CompilerState) : Prop where
  scope : s.scope = t.scope
  tail : s.tail = t.tail
  readOrder : s.readOrder = t.readOrder
  names : s.names = t.names

/-- What is noted of parameters is told apart by nothing else of the state. -/
theorem butParameters_untold : Untold ButParameters where
  scope _ _ h := h.scope
  read t key := by
    refine Respects.modify fun s t h => ?_
    rw [h.tail, h.readOrder]
    split
    · exact ⟨h.scope, rfl, rfl, h.names⟩
    · exact h
  named key := by
    refine Respects.modify fun s t h => ?_
    simp only [h.names]
    split
    · exact h
    · exact ⟨h.scope, h.tail, h.readOrder, rfl⟩

variable {env : Env}

/-- An expression is compiled alike whatever was noted of parameters. -/
theorem expr_butParameters (e : Syntax.Expr) : CompilesAlike ButParameters (expr e) :=
  expr_alike butParameters_untold e

/-- The values of a parameter are alike whatever was noted of parameters. -/
theorem valuesOf_butParameters {p : Syntax.Param} : Respects ButParameters (valuesOf env p) := by
  refine Respects.bind (Respects.modify fun s t h => ?_) fun _ => Respects.pure
  split <;> split <;> exact ⟨h.scope, h.tail, h.readOrder, h.names⟩

/-- A filter is compiled alike whatever was noted of parameters. -/
theorem filter_butParameters {opSpan : Span} {op : Syntax.BinaryOp} {p : Syntax.Param}
    {side : Syntax.Expr} : Respects ButParameters (filter env opSpan op p side) := by
  have hside := expr_butParameters side
  have hnone : ∀ s t : CompilerState, ButParameters s t → Relates ButParameters Eq
      (do
        modify fun s' => { s' with readOrder := s.readOrder, names := s.names }
        return .always : Compiler Expr)
      (do
        modify fun s' => { s' with readOrder := t.readOrder, names := t.names }
        return .always : Compiler Expr) := by
    intro s t hst
    refine Relates.bind (Relates.modify fun s' t' h => ?_) fun _ _ _ => Relates.pure rfl
    exact ⟨h.scope, h.tail, hst.readOrder, hst.names⟩
  have hsome : ∀ (text : Option TextOp) (negated : Bool) (x : Expr) (v : String) (rest : List String),
      Respects ButParameters (do
        let m ← filterValue env text negated (expr side) x v
        filterValues env text negated (expr side) x m rest : Compiler Expr) := fun _ _ _ _ _ =>
    Respects.bind (filterValue_respects hside) fun _ => filterValues_respects hside
  unfold filter
  split
  · exact errorAt_respects
  · refine Respects.bind valuesOf_butParameters fun values => Respects.get_bind fun s t hst => ?_
    simp only
    split
    next text _ =>
      refine Relates.bind (textOperand_respects butParameters_untold hside) fun x x' hx => ?_
      subst hx
      cases values with
      | nil => exact hnone s t hst
      | cons v rest => exact hsome _ _ x v rest
    · refine Relates.bind (hside _ _ _) fun x x' hx => ?_
      subst hx
      cases values with
      | nil => exact hnone s t hst
      | cons v rest => exact hsome _ _ x v rest

/-- A predicate is compiled alike whatever was noted of parameters. -/
theorem predicate_butParameters (e : Syntax.Expr) : Respects ButParameters (predicate env e) := by
  apply predicate_induct env (motive := fun _ m => Respects ButParameters m)
  case paren => exact fun _ _ _ ih => ih
  case and => exact fun _ _ _ ihx ihy => Respects.bind ihx fun _ => Respects.bind ihy fun _ => Respects.pure
  case or => exact fun _ _ _ ihx ihy => Respects.bind ihx fun _ => Respects.bind ihy fun _ => Respects.pure
  case filters => exact fun _ _ _ _ _ _ _ _ _ => filter_butParameters
  case plain => exact fun _ _ _ _ _ _ _ => condition_respects (expr_butParameters _)
  case other => exact fun _ _ _ => condition_respects (expr_butParameters _)

/-- Whether names are unique reads nothing of the state. -/
theorem uniqueNames_respects {R : CompilerState → CompilerState → Prop} {seen : List String}
    {columns : List NamedValue} : Respects R (uniqueNames env seen columns) := by
  induction columns generalizing seen with
  | nil => exact Respects.pure
  | cons col rest ih => exact Respects.ite (fun _ => errorAt_respects) fun _ => ih

/-- Columns are compiled alike whatever was noted of parameters. -/
theorem columns_butParameters {exprs : List Syntax.NamedExpr} {agg : Option RateBasis} :
    Respects ButParameters (columns env exprs agg) := by
  have hnamed : ∀ i, Respects ButParameters (namedColumns env agg i exprs) := by
    induction exprs with
    | nil => exact fun _ => Respects.pure
    | cons e rest ih =>
      intro i
      exact Respects.bind (expr_butParameters e.x _ _ _) fun _ =>
        Respects.bind (ih (i + 1)) fun _ => Respects.pure
  exact Respects.bind (hnamed 1) fun _ => Respects.bind uniqueNames_respects fun _ => Respects.pure

/-- A sort key is compiled alike whatever was noted of parameters. -/
theorem sortKey_butParameters {key : Syntax.SortKey} : Respects ButParameters (sortKey env key) :=
  Respects.bind (expr_butParameters key.x _ _ _) fun _ => Respects.pure

/-- A count of rows reads nothing of the state. -/
theorem rowCount_respects {R : CompilerState → CompilerState → Prop} {lit : Syntax.BasicLit} :
    Respects R (rowCount lit) := by
  unfold rowCount
  split
  · exact Respects.ite (fun _ => Respects.pure) fun _ => errorAt_respects
  · exact errorAt_respects

/-- The check of aggregates reads nothing of the state. -/
theorem checkAggregates_respects {R : CompilerState → CompilerState → Prop}
    {aggregates : List NamedValue} {exprs : List Syntax.NamedExpr} :
    Respects R (checkAggregates aggregates exprs) := by
  fun_induction checkAggregates aggregates exprs with
  | case1 a rest e es h ih => exact ih
  | case2 => exact errorAt_respects
  | case3 => exact Respects.pure

/-- A scope is set alike whatever was noted of parameters. -/
theorem setScope_butParameters {scope : Scope} : Respects ButParameters (setScope scope) :=
  Respects.modify fun _ _ h => ⟨rfl, h.tail, h.readOrder, h.names⟩

/-- A stage is compiled alike whatever was noted of parameters. -/
theorem stage_butParameters {before : List Stage} (s : Syntax.Stage) :
    Respects ButParameters (stage env before s) := by
  cases s <;> simp only [stage]
  case whereStage => exact Respects.bind (predicate_butParameters _) fun _ => Respects.pure
  case searchTextStage =>
    refine Respects.get_bind fun s t hst => ?_
    rw [hst.tail]
    exact Respects.ite (fun _ => errorAt_respects) fun _ => Respects.pure
  case searchParamStage =>
    refine Respects.get_bind fun s t hst => ?_
    rw [hst.tail]
    exact Respects.ite (fun _ => errorAt_respects) fun _ =>
      Respects.bind valuesOf_butParameters fun _ => Respects.pure
  case projectStage =>
    exact Respects.bind columns_butParameters fun _ =>
      Respects.bind setScope_butParameters fun _ => Respects.pure
  case extendStage =>
    refine Respects.bind columns_butParameters fun _ =>
      Respects.bind (Respects.modify fun s t h => ?_) fun _ => Respects.pure
    exact ⟨by rw [h.scope], h.tail, h.readOrder, h.names⟩
  case summarizeStage =>
    refine Respects.bind columns_butParameters fun _ => Respects.get_bind fun s t hst => ?_
    rw [hst.scope]
    exact Respects.bind columns_butParameters fun _ =>
      Respects.bind checkAggregates_respects fun _ => Respects.ite (fun _ => errorAt_respects) fun _ =>
        Respects.bind uniqueNames_respects fun _ =>
          Respects.bind setScope_butParameters fun _ => Respects.pure
  case sortStage => exact Respects.bind (Respects.mapM fun _ => sortKey_butParameters) fun _ => Respects.pure
  case takeStage => exact Respects.bind rowCount_respects fun _ => Respects.pure
  case topStage =>
    exact Respects.bind rowCount_respects fun _ =>
      Respects.bind sortKey_butParameters fun _ => Respects.pure
  case countStage => exact Respects.bind setScope_butParameters fun _ => Respects.pure
  case distinctStage =>
    exact Respects.bind columns_butParameters fun _ =>
      Respects.bind setScope_butParameters fun _ => Respects.pure

/-- The stages of a head are compiled alike whatever was noted of parameters. -/
theorem headStages_butParameters (stages : List Syntax.Stage) :
    Respects ButParameters (headStages env stages) := by
  induction stages with
  | nil => exact Respects.pure
  | cons s rest ih =>
    exact Respects.bind (stage_butParameters s) fun _ => Respects.bind ih fun _ => Respects.pure

/-- The stages of a tail are compiled alike whatever was noted of parameters. -/
theorem tailStages_butParameters (before : List Stage) (stages : List Syntax.Stage) :
    Respects ButParameters (tailStages env before stages) := by
  induction stages generalizing before with
  | nil => exact Respects.pure
  | cons s rest ih => exact Respects.bind (stage_butParameters s) fun _ => ih _

/-- The output is alike whatever was noted of parameters. -/
theorem output_butParameters : Respects ButParameters output := by
  unfold output
  refine Respects.get_bind fun s t hst => ?_
  rw [hst.scope, hst.names]
  refine Respects.ite (fun _ => ?_) fun _ => Respects.pure
  exact Respects.bind (Respects.forM fun _ => Respects.forM fun _ => butParameters_untold.read _ _)
    fun _ => Respects.pure

end Stages

section Without

/-- What is left of an `and` when something may be left of both sides. -/
def conjunction (opSpan : Span) : Option Syntax.Expr → Option Syntax.Expr → Option Syntax.Expr
  | some x, some y => some (.binary x opSpan .and y)
  | some x, none => some x
  | none, y => y

/-- `x'` is the condition `x` without a comparison with a filter set to All, of a part of `x` that a row
must meet. Nothing is left of a comparison alone. -/
inductive WithoutAll (values : String → List String) : Syntax.Expr → Option Syntax.Expr → Prop
  | comparison {x y side : Syntax.Expr} {opSpan : Span} {op : Syntax.BinaryOp} {p : Syntax.Param}
      (hsides : filterSides x op y = some (p, side)) (hall : ∀ v ∈ values p.name, v = "") :
      WithoutAll values (.binary x opSpan op y) none
  | paren {x : Syntax.Expr} {x' : Option Syntax.Expr} {lparen rparen : Span} (h : WithoutAll values x x') :
      WithoutAll values (.paren lparen x rparen) (x'.map (.paren lparen · rparen))
  | andLeft {x y : Syntax.Expr} {x' : Option Syntax.Expr} {opSpan : Span} (h : WithoutAll values x x') :
      WithoutAll values (.binary x opSpan .and y) (conjunction opSpan x' (some y))
  | andRight {x y : Syntax.Expr} {y' : Option Syntax.Expr} {opSpan : Span} (h : WithoutAll values y y') :
      WithoutAll values (.binary x opSpan .and y) (conjunction opSpan (some x) y')
  | orLeft {x x' y : Syntax.Expr} {opSpan : Span} (h : WithoutAll values x (some x')) :
      WithoutAll values (.binary x opSpan .or y) (some (.binary x' opSpan .or y))
  | orRight {x y y' : Syntax.Expr} {opSpan : Span} (h : WithoutAll values y (some y')) :
      WithoutAll values (.binary x opSpan .or y) (some (.binary x opSpan .or y'))

/-- `stages'` are the stages without such a comparison in a where, and without the where that nothing is
left of. -/
inductive StagesWithoutAll (values : String → List String) :
    List Syntax.Stage → List Syntax.Stage → Prop
  | whereLess {pipe keyword : Span} {e e' : Syntax.Expr} {rest : List Syntax.Stage}
      (h : WithoutAll values e (some e')) :
      StagesWithoutAll values (.whereStage pipe keyword e :: rest) (.whereStage pipe keyword e' :: rest)
  | whereGone {pipe keyword : Span} {e : Syntax.Expr} {rest : List Syntax.Stage}
      (h : WithoutAll values e none) :
      StagesWithoutAll values (.whereStage pipe keyword e :: rest) rest
  | later {s : Syntax.Stage} {rest rest' : List Syntax.Stage} (h : StagesWithoutAll values rest rest') :
      StagesWithoutAll values (s :: rest) (s :: rest')

/-- What is left of a condition compiles to, if anything is. -/
def predicateLeft (env : Env) : Option Syntax.Expr → Compiler Expr
  | some e => predicate env e
  | none => return .always

variable {env : Env}

/-- States that are the same, of one scope, in one half of the Query. -/
def SameIn (scope : Scope) (tail : Bool) (s t : CompilerState) : Prop :=
  s = t ∧ s.scope = scope ∧ s.tail = tail

/-- Compiling in the same scope says nothing of what is noted. -/
theorem sameIn_untold (scope : Scope) (tail : Bool) : Untold (SameIn scope tail) where
  scope s t h := by rw [h.1]
  read t key := by
    refine Respects.modify fun s t h => ?_
    rw [← h.1]
    split
    · exact ⟨rfl, h.2⟩
    · exact ⟨rfl, h.2⟩
  named key := by
    refine Respects.modify fun s t h => ?_
    rw [← h.1]
    split
    · exact ⟨rfl, h.2⟩
    · exact ⟨rfl, h.2⟩

/-- What only notes Attributes leaves the scope and the half of the Query as they were. -/
theorem run_stays {α : Type} {x : Compiler α} {s s' : CompilerState} {a : α}
    (hx : ∀ scope tail, Respects (SameIn scope tail) x) (hrun : x.run s = .ok (a, s')) :
    s'.scope = s.scope ∧ s'.tail = s.tail := by
  obtain ⟨_, _, -, -, hend⟩ := (hx s.scope s.tail).exists_ok ⟨rfl, rfl, rfl⟩ hrun
  exact hend.2

/-- A comparison with a filter set to All leaves nothing but the filter's name. -/
theorem filter_all {opSpan : Span} {op : Syntax.BinaryOp} {p : Syntax.Param} {side : Syntax.Expr}
    (hall : ∀ v ∈ env.values p.name, v = "") :
    Follows ButParameters Eq (filter env opSpan op p side) (pure .always) := by
  have hnone : (env.values p.name).filter (· != "") = [] := by
    simpa [List.filter_eq_nil_iff] using hall
  have hvalues : ∀ t, YieldsTo (ButParameters · t) (valuesOf env p) fun values s =>
      values = [] ∧ ButParameters s t := by
    intro t
    refine (YieldsTo.modify fun s hs => ?_).bind fun _ => YieldsTo.pure fun s hs => ⟨hnone, hs⟩
    split
    · exact hs
    · exact ⟨hs.scope, hs.tail, hs.readOrder, hs.names⟩
  have hrest : ∀ (t before : CompilerState) (c : Compiler Expr) (g : Expr → Compiler Expr),
      (∀ scope tail, Respects (SameIn scope tail) c) → ButParameters before t →
      (∀ x, g x = do
        modify fun s => { s with readOrder := before.readOrder, names := before.names }
        return .always) →
      YieldsTo (fun s => before = s) (c >>= g) fun a s => a = .always ∧ ButParameters s t := by
    intro t before c g hc hbefore hg
    have hstays : YieldsTo (fun s => before = s) c fun _ s =>
        s.scope = before.scope ∧ s.tail = before.tail := by
      intro s x s' hs hrun
      subst hs
      exact run_stays hc hrun
    refine hstays.bind fun x => ?_
    rw [hg x]
    refine (YieldsTo.modify fun s hs => ?_).bind fun _ => YieldsTo.pure fun s hs => ⟨rfl, hs⟩
    exact ⟨hs.1.trans hbefore.scope, hs.2.trans hbefore.tail, hbefore.readOrder, hbefore.names⟩
  have hside := fun scope tail => expr_alike (sameIn_untold scope tail) side
  have hfilter : ∀ t, YieldsTo (ButParameters · t) (filter env opSpan op p side) fun a s =>
      a = .always ∧ ButParameters s t := by
    intro t
    unfold filter
    split
    · exact YieldsTo.throw
    · refine (hvalues t).bind fun values => YieldsTo.intro_pre fun hv => ?_
      subst hv
      refine YieldsTo.get.bind fun before => ?_
      simp only
      intro s a s' hs
      have hbefore : ButParameters before t := hs.1 ▸ hs.2
      split
      · exact hrest t before _ _ (fun scope tail => textOperand_respects (sameIn_untold scope tail)
          (hside scope tail)) hbefore (fun x => rfl) s a s' hs.1
      · exact hrest t before _ _ (fun scope tail => hside scope tail _ _ _) hbefore (fun x => rfl)
          s a s' hs.1
  intro s t hst a s' hrun
  obtain ⟨ha, hs'⟩ := hfilter t s a s' hst hrun
  exact ⟨.always, t, rfl, ha, hs'⟩

variable {e : Syntax.Expr} {e' : Option Syntax.Expr}

/-- What always holds is the one expression that does. -/
theorem eq_always {x : Expr} (h : x.isAlways = true) : x = .always := by
  cases x <;> first | rfl | cases h

/-- A condition without a comparison with a filter set to All compiles to the same. -/
theorem predicate_without (h : WithoutAll env.values e e') :
    Follows ButParameters Eq (predicate env e) (predicateLeft env e') := by
  have hself : ∀ x, Follows ButParameters Eq (predicate env x) (predicate env x) :=
    fun x => .ofRelates (predicate_butParameters x)
  have hsame : ∀ c : Compiler Expr, Respects ButParameters c → Follows ButParameters Eq c c :=
    fun c hc => .ofRelates hc
  have halways : Expr.always.isAlways = true := rfl
  induction h with
  | @comparison x y side opSpan op p hsides hall =>
    have hcase : predicate env (.binary x opSpan op y) = filter env opSpan op p side := by
      have hop := filterSides_op hsides
      cases op <;> simp [filterOps] at hop <;> simp only [predicate, hsides]
    rw [hcase]
    exact filter_all hall
  | @paren x x' lparen rparen h ih =>
    cases x' with
    | none => exact ih
    | some x' => exact ih
  | @andLeft x y x' opSpan h ih =>
    cases x' with
    | none =>
      have hleft : predicate env y = (do
          let px ← predicateLeft env none
          let py ← predicate env y
          return if px.isAlways then py else if py.isAlways then px else .and px py) := by
        simp [predicateLeft, halways]
      have hfollows : Follows ButParameters Eq (predicate env (.binary x opSpan .and y)) (do
          let px ← predicateLeft env none
          let py ← predicate env y
          return if px.isAlways then py else if py.isAlways then px else .and px py) := by
        rw [predicate]
        refine Follows.bind ih fun px px' hpx => Follows.bind (hself y) fun py py' hpy => ?_
        rw [hpx, hpy]
        exact hsame _ Respects.pure
      rw [← hleft] at hfollows
      exact hfollows
    | some x' =>
      rw [predicate, conjunction, predicateLeft, predicate]
      refine Follows.bind ih fun px px' hpx => Follows.bind (hself y) fun py py' hpy => ?_
      rw [hpx, hpy]
      exact hsame _ Respects.pure
  | @andRight x y y' opSpan h ih =>
    cases y' with
    | none =>
      have hright : predicate env x = (do
          let px ← predicate env x
          let py ← predicateLeft env none
          return if px.isAlways then py else if py.isAlways then px else .and px py) := by
        have hfold : ∀ px : Expr, (if px.isAlways then .always else px) = px := by
          intro px
          split
          next hpx => exact (eq_always hpx).symm
          · rfl
        simp [predicateLeft, hfold, halways]
      have hfollows : Follows ButParameters Eq (predicate env (.binary x opSpan .and y)) (do
          let px ← predicate env x
          let py ← predicateLeft env none
          return if px.isAlways then py else if py.isAlways then px else .and px py) := by
        rw [predicate]
        refine Follows.bind (hself x) fun px px' hpx => Follows.bind ih fun py py' hpy => ?_
        rw [hpx, hpy]
        exact hsame _ Respects.pure
      rw [← hright] at hfollows
      exact hfollows
    | some y' =>
      rw [predicate, conjunction, predicateLeft, predicate]
      refine Follows.bind (hself x) fun px px' hpx => Follows.bind ih fun py py' hpy => ?_
      rw [hpx, hpy]
      exact hsame _ Respects.pure
  | @orLeft x x' y opSpan h ih =>
    rw [predicate, predicateLeft, predicate]
    refine Follows.bind ih fun px px' hpx => Follows.bind (hself y) fun py py' hpy => ?_
    rw [hpx, hpy]
    exact hsame _ Respects.pure
  | @orRight x y y' opSpan h ih =>
    rw [predicate, predicateLeft, predicate]
    refine Follows.bind (hself x) fun px px' hpx => Follows.bind ih fun py py' hpy => ?_
    rw [hpx, hpy]
    exact hsame _ Respects.pure

variable {stages stages' : List Syntax.Stage}

/-- The comparison goes from the head or from the tail. -/
theorem StagesWithoutAll.split {values : String → List String}
    (h : StagesWithoutAll values stages stages') :
    (StagesWithoutAll values (stages.takeWhile isHead) (stages'.takeWhile isHead) ∧
      stages.dropWhile isHead = stages'.dropWhile isHead) ∨
    (stages.takeWhile isHead = stages'.takeWhile isHead ∧
      StagesWithoutAll values (stages.dropWhile isHead) (stages'.dropWhile isHead)) := by
  induction h with
  | whereLess h => exact .inl ⟨.whereLess h, rfl⟩
  | whereGone h => exact .inl ⟨.whereGone h, rfl⟩
  | @later s rest rest' h ih =>
    cases hs : isHead s with
    | true =>
      simp only [List.takeWhile_cons, List.dropWhile_cons, hs, ↓reduceIte]
      exact ih.imp (fun h => ⟨.later h.1, h.2⟩) fun h => ⟨by rw [h.1], h.2⟩
    | false =>
      simp only [List.takeWhile_cons, List.dropWhile_cons, hs, Bool.false_eq_true, ↓reduceIte]
      exact .inr ⟨trivial, .later h⟩

/-- A head is compiled as it is without the filters that ask for all. -/
theorem headStages_without (h : StagesWithoutAll env.values stages stages') :
    Follows ButParameters Eq (headStages env stages) (headStages env stages') := by
  induction h with
  | @whereLess pipe keyword e e' rest h =>
    simp only [headStages, stage, bind_assoc, pure_bind]
    refine Follows.bind (predicate_without h) fun p p' hp => ?_
    rw [hp]
    exact .ofRelates (Respects.bind (headStages_butParameters rest) fun _ => Respects.pure)
  | @whereGone pipe keyword e rest h =>
    have hrest : headStages env rest = (do
        let p ← predicateLeft env none
        let others ← headStages env rest
        return if keepsAll (.whereStage p) then others else .whereStage p :: others) := by
      simp [predicateLeft, keepsAll, Expr.isAlways]
    have hfollows : Follows ButParameters Eq (headStages env (.whereStage pipe keyword e :: rest)) (do
        let p ← predicateLeft env none
        let others ← headStages env rest
        return if keepsAll (.whereStage p) then others else .whereStage p :: others) := by
      simp only [headStages, stage, bind_assoc, pure_bind]
      refine Follows.bind (predicate_without h) fun p p' hp => ?_
      rw [hp]
      exact .ofRelates (Respects.bind (headStages_butParameters rest) fun _ => Respects.pure)
    rw [← hrest] at hfollows
    exact hfollows
  | @later s rest rest' h ih =>
    refine Follows.bind (.ofRelates (stage_butParameters s)) fun c c' hc =>
      Follows.bind ih fun cs cs' hcs => ?_
    rw [hc, hcs]
    exact .ofRelates Respects.pure

/-- A tail is compiled as it is without the filters that ask for all. -/
theorem tailStages_without (h : StagesWithoutAll env.values stages stages') (before : List Stage) :
    Follows ButParameters Eq (tailStages env before stages) (tailStages env before stages') := by
  induction h generalizing before with
  | @whereLess pipe keyword e e' rest h =>
    simp only [tailStages, stage, bind_assoc, pure_bind]
    refine Follows.bind (predicate_without h) fun p p' hp => ?_
    rw [hp]
    exact .ofRelates (tailStages_butParameters _ rest)
  | @whereGone pipe keyword e rest h =>
    have hrest : tailStages env before rest = (do
        let p ← predicateLeft env none
        tailStages env (if keepsAll (.whereStage p) then before else .whereStage p :: before) rest) := by
      simp [predicateLeft, keepsAll, Expr.isAlways]
    have hfollows : Follows ButParameters Eq (tailStages env before (.whereStage pipe keyword e :: rest)) (do
        let p ← predicateLeft env none
        tailStages env (if keepsAll (.whereStage p) then before else .whereStage p :: before) rest) := by
      simp only [tailStages, stage, bind_assoc, pure_bind]
      refine Follows.bind (predicate_without h) fun p p' hp => ?_
      rw [hp]
      exact .ofRelates (tailStages_butParameters _ rest)
    rw [← hrest] at hfollows
    exact hfollows
  | @later s rest rest' h ih =>
    refine Follows.bind (.ofRelates (stage_butParameters s)) fun c c' hc => ?_
    rw [hc]
    exact ih _

/-- Queries that differ in the filters they name, at most. -/
def SameButParameters (q q' : Query) : Prop := q' = { q with parameters := q'.parameters }

/-- A Query compiles to the same without a comparison with a filter set to All that its rows must meet. -/
theorem compileTree_without {source : Option Syntax.Ident}
    (h : StagesWithoutAll env.values stages stages') :
    Follows ButParameters SameButParameters (compileTree env ⟨source, stages⟩)
      (compileTree env ⟨source, stages'⟩) := by
  have hhead : Follows ButParameters Eq (headStages env (stages.takeWhile isHead))
      (headStages env (stages'.takeWhile isHead)) := by
    rcases h.split with ⟨hhead, -⟩ | ⟨hhead, -⟩
    · exact headStages_without hhead
    · rw [hhead]
      exact .ofRelates (headStages_butParameters _)
  have htail : ∀ env' : Env, env'.values = env.values →
      Follows ButParameters Eq (tailStages env' [] (stages.dropWhile isHead))
        (tailStages env' [] (stages'.dropWhile isHead)) := by
    intro env' hvalues
    rcases h.split with ⟨-, htail⟩ | ⟨-, htail⟩
    · rw [htail]
      exact .ofRelates (tailStages_butParameters _ _)
    · exact tailStages_without (hvalues ▸ htail) []
  have hoverTail : Respects ButParameters
      (modify fun s => { s with tail := true } : Compiler PUnit) :=
    Respects.modify fun s t hst => ⟨hst.scope, rfl, hst.readOrder, hst.names⟩
  have hend : ∀ k : CompilerState → Query, (∀ s t, ButParameters s t → SameButParameters (k s) (k t)) →
      Follows ButParameters SameButParameters (get >>= fun s => pure (k s) : Compiler Query)
        (get >>= fun s => pure (k s)) :=
    fun k hk => .ofRelates (Relates.bind Relates.get fun s t hst => Relates.pure (hk s t hst))
  unfold compileTree
  refine Follows.bind hhead fun head head' hheads => ?_
  subst hheads
  refine Follows.bind (.ofRelates hoverTail) fun _ _ _ => ?_
  refine Follows.bind (htail _ rfl) fun tail tail' htails => ?_
  subst htails
  simp only
  split
  · refine Follows.bind (.ofRelates output_butParameters) fun out out' hout => ?_
    subst hout
    exact hend _ fun s t hst => by simp only [SameButParameters, hst.readOrder]
  · exact hend _ fun s t hst => by simp only [SameButParameters]

/-- A Query compiles as it does without the filters that ask for all. -/
theorem compileQuery_without {source : Option Syntax.Ident} {q : Query}
    (h : StagesWithoutAll env.values stages stages')
    (hq : compileQuery env ⟨source, stages⟩ = .ok q) :
    ∃ q', compileQuery env ⟨source, stages'⟩ = .ok q' ∧ SameButParameters q q' := by
  unfold compileQuery at hq ⊢
  rw [StateT.run'_eq] at hq ⊢
  rcases hrun : (compileTree env ⟨source, stages⟩).run ⟨[], .logScope, false, [], []⟩ with e | ⟨q₀, s'⟩
  · rw [hrun] at hq
    cases hq
  · rw [hrun] at hq
    cases hq
    obtain ⟨q', t', hrun', hsame, -⟩ :=
      compileTree_without h _ _ ⟨rfl, rfl, rfl, rfl⟩ _ _ hrun
    rw [hrun']
    exact ⟨q', rfl, hsame⟩

/-- Filters mean what they are documented to, in any condition of a where that compiles: as it is written
for ClickHouse, whatever places it reads Fields at, and as it is documented of a Log. And a comparison
with a filter set to All that rows must meet takes nothing else with it: without it, the Query reads and
outputs the same Attributes. -/
theorem filters_mean :
    (∀ (env : Env) (e : Syntax.Expr) (s s' : CompilerState) (p : Expr),
      (predicate env e).run s = .ok (p, s') →
      (∀ (ch : ClickHouse) (f : Fields) (group : List Sql.Row) (row : Sql.Row),
        let holds := fun c => (writeCondition env.lib f c false).holds ch group row
        Keeps holds p ↔ Means holds env s.scope e) ∧
      ∀ (ch : ClickHouse) (values : FieldValues),
        let holds := conditionHolds ch env.lib values
        Keeps holds p ↔ Means holds env s.scope e) ∧
    ∀ (env : Env) (source : Option Syntax.Ident) (stages stages' : List Syntax.Stage) (q : Query),
      StagesWithoutAll env.values stages stages' →
      compileQuery env ⟨source, stages⟩ = .ok q →
      ∃ q', compileQuery env ⟨source, stages'⟩ = .ok q' ∧ q'.reads = q.reads ∧ q'.output = q.output := by
  refine ⟨fun env e s s' p hrun => ⟨?_, ?_⟩, ?_⟩
  · intro ch f group row
    exact (predicate_means holding_written e s p s' rfl hrun).1
  · intro ch values
    exact (predicate_means holding_documented e s p s' rfl hrun).1
  · intro env source stages stages' q hwithout hq
    obtain ⟨q', hq', hsame⟩ := compileQuery_without hwithout hq
    refine ⟨q', hq', ?_, ?_⟩
    · rw [hsame]
    · rw [hsame]

/-- `tier == $all`, a filter without a value, and `status == $status`, one of two. -/
private def byTier : Syntax.Expr := Sample.binary .eq (Sample.field "tier") (.param ⟨"all", .null⟩)

private def byStatus : Syntax.Expr := Sample.binary .eq (Sample.field "status") (.param ⟨"status", .null⟩)

private def statusEnv : Env :=
  { Sample.env with values := fun name => if name = "status" then ["5", "down"] else [""] }

/-- `where … | summarize count() by path`. -/
private def filtered (e : Syntax.Expr) : List Syntax.Stage :=
  [.whereStage .null .null e,
    .summarizeStage .null .null [⟨none, Sample.call "count" []⟩] [⟨none, Sample.field "path"⟩]]

/-- A filter by status means any of its values, and none of the others. -/
theorem filters_mean_status :
    (∃ p s', (predicate statusEnv (Sample.binary .and byTier byStatus)).run
        ⟨[], .logScope, false, [], []⟩ = .ok (p, s') ∧
      ∀ (ch : ClickHouse) (values : FieldValues),
        let holds := conditionHolds ch fewNumbers values
        Keeps holds p ↔ Means holds statusEnv .logScope (Sample.binary .and byTier byStatus)) ∧
    ∃ q q', compileQuery statusEnv ⟨none, filtered (Sample.binary .and byTier byStatus)⟩ = .ok q ∧
      compileQuery statusEnv ⟨none, filtered byStatus⟩ = .ok q' ∧ q'.reads = q.reads ∧
      q'.output = q.output := by
  refine ⟨?_, ?_⟩
  · have hok : ((predicate statusEnv (Sample.binary .and byTier byStatus)).run
        ⟨[], .logScope, false, [], []⟩).isOk = true := by decide +kernel
    rcases hrun : (predicate statusEnv (Sample.binary .and byTier byStatus)).run
        ⟨[], .logScope, false, [], []⟩ with e | ⟨p, s'⟩
    · rw [hrun] at hok
      cases hok
    · exact ⟨p, s', rfl, (filters_mean.1 statusEnv _ _ s' p hrun).2⟩
  · have hok : (compileQuery statusEnv
        ⟨none, filtered (Sample.binary .and byTier byStatus)⟩).isOk = true := by decide +kernel
    rcases hq : compileQuery statusEnv ⟨none, filtered (Sample.binary .and byTier byStatus)⟩ with e | q
    · rw [hq] at hok
      cases hok
    · have hwithout : WithoutAll statusEnv.values (Sample.binary .and byTier byStatus) (some byStatus) :=
        .andLeft (.comparison rfl (by decide))
      obtain ⟨q', hq', hsame⟩ := filters_mean.2 statusEnv none _ _ q (.whereLess hwithout) hq
      exact ⟨q, q', rfl, hq', hsame⟩

end Without

end SolidTrace.LogQuery
