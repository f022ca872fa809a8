import SolidTrace.LogQuery.Notes

/-!
# Compiling stages in other places

A stage compiles wherever it is in a text, and to the same stage but for the places of its columns. So
does a tree whose stages are another tree's at other places.
-/

namespace SolidTrace.LogQuery

section Places

def NamedValue.unplaced (col : NamedValue) : NamedValue := { col with span := .null }

/-- A compiled stage without the places of its columns. -/
def Stage.unplaced : Stage → Stage
  | .projectStage columns => .projectStage (columns.map NamedValue.unplaced)
  | .extendStage columns => .extendStage (columns.map NamedValue.unplaced)
  | .summarizeStage columnsBy aggregates =>
    .summarizeStage (columnsBy.map NamedValue.unplaced) (aggregates.map NamedValue.unplaced)
  | .distinctStage columns => .distinctStage (columns.map NamedValue.unplaced)
  | s => s

/-- Columns that are the same but for their places. -/
abbrev SameColumns : List NamedValue → List NamedValue → Prop :=
  List.Forall₂ fun a b => a.name = b.name ∧ a.x = b.x

/-- What depends on columns' names and expressions alone is the same for the same columns. -/
theorem SameColumns.map_eq {β : Type} {cols cols' : List NamedValue} (h : SameColumns cols cols')
    {g : NamedValue → β} (hg : ∀ a b : NamedValue, a.name = b.name → a.x = b.x → g a = g b) :
    cols.map g = cols'.map g := by
  induction h with
  | nil => rfl
  | cons hab _ ih => rw [List.map_cons, List.map_cons, hg _ _ hab.1 hab.2, ih]

/-- The same columns are the same without their places. -/
theorem SameColumns.unplaced {cols cols' : List NamedValue} (h : SameColumns cols cols') :
    cols.map NamedValue.unplaced = cols'.map NamedValue.unplaced :=
  h.map_eq fun a b hname hx => by simp [NamedValue.unplaced, hname, hx]

/-- The same columns make the same scope. -/
theorem SameColumns.columnsOf {cols cols' : List NamedValue} (h : SameColumns cols cols') :
    LogQuery.columnsOf cols = LogQuery.columnsOf cols' :=
  h.map_eq fun a b hname hx => by rw [hname, hx]

/-- Stages that are the same but for places. -/
def SameStages (stages stages' : List Stage) : Prop :=
  stages.map Stage.unplaced = stages'.map Stage.unplaced

/-- A column is found by its name, wherever it was written. -/
theorem findColumn_unplaced (columns : List NamedValue) (name : String) :
    findColumn (columns.map NamedValue.unplaced) name = findColumn columns name := by
  rw [findColumn, List.find?_map, Option.map_map]
  rfl

/-- What a stage makes of a name does not depend on places. -/
theorem made_unplaced (s : Stage) (name : String) : made s.unplaced name = made s name := by
  cases s <;> simp only [Stage.unplaced, made, findColumn_unplaced]

/-- A Log's time is one wherever the stages before were written. -/
theorem isLogTime_unplaced (before : List Stage) (x : Expr) :
    isLogTime (before.map Stage.unplaced) x = isLogTime before x := by
  induction before generalizing x with
  | nil => rfl
  | cons s before ih =>
    cases x with
    | columnRef name t message =>
      rw [List.map_cons, isLogTime, isLogTime, made_unplaced]
      cases made s name with
      | value x => exact ih x
      | kept => exact ih _
      | lost => rfl
    | fieldRef => rfl
    | _ => rfl

/-- A bin of a Log's time is one wherever the stages before were written. -/
theorem binOfLogTime_unplaced (before : List Stage) (x : Expr) :
    binOfLogTime (before.map Stage.unplaced) x = binOfLogTime before x := by
  induction before generalizing x with
  | nil => rfl
  | cons s before ih =>
    cases x with
    | columnRef name t message =>
      rw [List.map_cons, binOfLogTime, binOfLogTime, made_unplaced]
      cases made s name with
      | value x => exact ih x
      | kept => exact ih _
      | lost => rfl
    | call fn args t =>
      have htime : ∀ x, isLogTime (s.unplaced :: before.map Stage.unplaced) x = isLogTime (s :: before) x :=
        isLogTime_unplaced (s :: before)
      rw [List.map_cons]
      unfold binOfLogTime
      split <;> simp_all
    | _ => rfl

/-- The basis of a rate is one for the same columns after the same stages. -/
theorem rateBasisOf_same {before before' : List Stage} {scope : Scope} {columnsBy columnsBy' : List NamedValue}
    (hbefore : SameStages before before') (hcolumns : SameColumns columnsBy columnsBy') :
    rateBasisOf before scope columnsBy = rateBasisOf before' scope columnsBy' := by
  have htime : ∀ x, isLogTime before x = isLogTime before' x := fun x => by
    rw [← isLogTime_unplaced, ← isLogTime_unplaced before', hbefore]
  have hbinned : ∀ x, binOfLogTime before x = binOfLogTime before' x := fun x => by
    rw [← binOfLogTime_unplaced, ← binOfLogTime_unplaced before', hbefore]
  have hbin : (rateBin before columnsBy).map Prod.snd = (rateBin before' columnsBy').map Prod.snd := by
    induction hcolumns with
    | nil => rfl
    | cons hab _ ih =>
      rw [rateBin, rateBin, hbinned, hab.2]
      cases binOfLogTime before' _ with
      | some size => rfl
      | none => exact ih
  have hother : columnsBy.any (fun col => col.x.typ == .time) = columnsBy'.any fun col => col.x.typ == .time := by
    clear hbin
    induction hcolumns with
    | nil => rfl
    | cons hab _ ih => rw [List.any_cons, List.any_cons, hab.2, ih]
  simp only [rateBasisOf, hbin, hother]
  cases scope.lookup "time" with
  | none => rfl
  | some col => simp only [htime]

/-- Keeping all columns does not depend on places. -/
theorem keepsAll_unplaced (s : Stage) : keepsAll s.unplaced = keepsAll s := by
  cases s <;> rfl

end Places

section States

/-- Both states are at the same stage, with the same filters named and the same Attributes noted but one. -/
structure SameRows (apart : String) (s t : CompilerState) : Prop where
  scope : s.scope = t.scope
  tail : s.tail = t.tail
  parameters : s.parameters = t.parameters
  readOrder : (s.readOrder.filter fun k => k.key ≠ apart) = t.readOrder.filter fun k => k.key ≠ apart
  names : (s.names.filter fun name => name ≠ apart) = t.names.filter fun name => name ≠ apart

/-- What is added to two lists where they lack it leaves them the same but for what is left out. -/
theorem filter_noted {α : Type} [DecidableEq α] {p : α → Bool} {l l' : List α} (h : l.filter p = l'.filter p)
    (a : α) : (if l.contains a then l else l ++ [a]).filter p =
      (if l'.contains a then l' else l' ++ [a]).filter p := by
  cases hp : p a with
  | false =>
    have hsame : ∀ l : List α, (if l.contains a then l else l ++ [a]).filter p = l.filter p := fun l => by
      split
      · rfl
      · rw [List.filter_append, List.filter_cons_of_neg (by simp [hp]), List.filter_nil, List.append_nil]
    rw [hsame, hsame, h]
  | true =>
    have hmem : ∀ l : List α, a ∈ l ↔ a ∈ l.filter p := fun l => by rw [List.mem_filter, and_iff_left hp]
    have hcontains : l.contains a = l'.contains a := by
      rw [Bool.eq_iff_iff, List.contains_iff_mem, List.contains_iff_mem, hmem, h, ← hmem]
    rw [hcontains]
    split
    · exact h
    · rw [List.filter_append, List.filter_append, h]

/-- What notes that an Attribute is read changes no more than what is read. -/
theorem noteRead_eq (s : CompilerState) (k : AttrKey) :
    (if s.tail && !s.readOrder.contains k then { s with readOrder := s.readOrder ++ [k] } else s) =
      { s with readOrder := if s.tail then (if s.readOrder.contains k then s.readOrder else s.readOrder ++ [k])
        else s.readOrder } := by
  obtain ⟨parameters, scope, tail, readOrder, names⟩ := s
  cases tail with
  | false => rfl
  | true =>
    dsimp only
    cases readOrder.contains k <;> rfl

variable {env : Env} {text apart : String}

/-- Having the same rows says nothing of what is noted. -/
theorem sameRows_untold : Untold (SameRows apart) where
  scope _ _ h := h.scope
  read t key := by
    refine Respects.modify fun s t h => ?_
    rw [noteRead_eq, noteRead_eq, h.tail]
    refine ⟨h.scope, rfl, h.parameters, ?_, h.names⟩
    cases t.tail with
    | false => exact h.readOrder
    | true => exact filter_noted h.readOrder _
  named key := by
    refine Respects.modify fun s t h => ?_
    have hnamed : ∀ s : CompilerState, (if s.names.contains key then s else { s with names := s.names ++ [key] }) =
        { s with names := if s.names.contains key then s.names else s.names ++ [key] } := fun s => by split <;> rfl
    rw [hnamed, hnamed]
    exact ⟨h.scope, h.tail, h.parameters, h.readOrder, filter_noted h.names _⟩

variable (f : Span → Span)

/-- An expression is compiled as it is at another place. -/
theorem expr_moved (e : Syntax.Expr) : CompilesAs (SameRows apart) (expr e) (expr (e.mapSpans f)) :=
  expr_as sameRows_untold f e

/-- The values of a parameter are the same in another text. -/
theorem valuesOf_moved (p : Syntax.Param) :
    Relates (SameRows apart) Eq (valuesOf env p) (valuesOf { env with text := text } (p.mapSpans f)) := by
  refine Relates.bind_eq (Relates.modify fun s t h => ?_) fun _ => Relates.pure rfl
  rw [h.parameters]
  by_cases hnamed : t.parameters.contains p.name = true
  · rw [if_pos hnamed, if_pos (by exact hnamed)]
    exact h
  · rw [if_neg hnamed, if_neg (by exact hnamed)]
    exact ⟨h.scope, h.tail, rfl, h.readOrder, h.names⟩

/-- A filter for one value is compiled as it is at another place. -/
theorem filterValue_moved {op : Option TextOp} {negated : Bool} (side : Syntax.Expr) (x : Expr) (v : String) :
    Relates (SameRows apart) Eq (filterValue env op negated (expr side) x v)
      (filterValue { env with text := text } op negated (expr (side.mapSpans f)) x v) := by
  have hreads : readsAs { env with text := text } v = readsAs env v := rfl
  simp only [filterValue, hreads]
  cases readsAs env v with
  | none => exact Relates.pure rfl
  | some l =>
    exact Relates.ite_same (fun _ => Relates.bind_eq (expr_moved f side _ _ _ _) fun _ => Relates.pure rfl)
      fun _ => Relates.pure rfl

/-- A filter for each value is compiled as it is at another place. -/
theorem filterValues_moved {op : Option TextOp} {negated : Bool} (side : Syntax.Expr) (x : Expr)
    (values : List String) (all : Expr) :
    Relates (SameRows apart) Eq (filterValues env op negated (expr side) x all values)
      (filterValues { env with text := text } op negated (expr (side.mapSpans f)) x all values) := by
  induction values generalizing all with
  | nil => exact Relates.pure rfl
  | cons v rest ih => exact Relates.bind_eq (filterValue_moved f side x v) fun m => ih _

/-- A filter is compiled as it is at another place. -/
theorem filter_moved {opSpan opSpan' : Span} {op : Syntax.BinaryOp} (p : Syntax.Param) (side : Syntax.Expr) :
    Relates (SameRows apart) Eq (filter env opSpan op p side)
      (filter { env with text := text } opSpan' op (p.mapSpans f) (side.mapSpans f)) := by
  have hnone : ∀ before before', SameRows apart before before' → Relates (SameRows apart) Eq
      (do
        modify fun s => { s with readOrder := before.readOrder, names := before.names }
        return .always : Compiler Expr)
      (do
        modify fun s => { s with readOrder := before'.readOrder, names := before'.names }
        return .always) := fun _ _ hbefore =>
    Relates.bind_eq (Relates.modify fun s t h => ⟨h.scope, h.tail, h.parameters, hbefore.readOrder, hbefore.names⟩)
      fun _ => Relates.pure rfl
  cases side
  case param => exact errorAt_relates
  all_goals
    refine Relates.bind_eq (valuesOf_moved f p) fun values => Relates.bind Relates.get fun s t hst => ?_
    simp only
    cases textOp? op with
    | some op =>
      refine Relates.bind_eq (textOperand_relates sameRows_untold (expr_moved f _)) fun x => ?_
      cases values with
      | nil => exact hnone s t hst
      | cons v rest =>
        exact Relates.bind_eq (filterValue_moved f _ x v) fun m => filterValues_moved f _ x rest m
    | none =>
      refine Relates.bind_eq (expr_moved f _ _ _ _ _) fun x => ?_
      cases values with
      | nil => exact hnone s t hst
      | cons v rest =>
        exact Relates.bind_eq (filterValue_moved f _ x v) fun m => filterValues_moved f _ x rest m

/-- The side of a filter is found at any place. -/
theorem filterSides_mapSpans (x : Syntax.Expr) (op : Syntax.BinaryOp) (y : Syntax.Expr) :
    filterSides (x.mapSpans f) op (y.mapSpans f) =
      (filterSides x op y).map fun sides => (sides.1.mapSpans f, sides.2.mapSpans f) := by
  unfold filterSides
  cases filterOps op with
  | none => rfl
  | some either => cases either <;> cases y <;> cases x <;> rfl

/-- A predicate is compiled as it is at another place. -/
theorem predicate_moved (e : Syntax.Expr) :
    Relates (SameRows apart) Eq (predicate env e) (predicate { env with text := text } (e.mapSpans f)) := by
  apply predicate_induct env
    (motive := fun e m => Relates (SameRows apart) Eq m (predicate { env with text := text } (e.mapSpans f)))
  case paren => exact fun _ _ _ ih => ih
  case and =>
    exact fun _ _ _ ihx ihy => Relates.bind_eq ihx fun _ => Relates.bind_eq ihy fun _ => Relates.pure rfl
  case or =>
    exact fun _ _ _ ihx ihy => Relates.bind_eq ihx fun _ => Relates.bind_eq ihy fun _ => Relates.pure rfl
  case filters =>
    intro x opSpan op y hand hor p side hsides
    rw [Syntax.Expr.mapSpans, predicate_filter hand hor (by rw [filterSides_mapSpans, hsides]; rfl)]
    exact filter_moved f p side
  case plain =>
    intro x opSpan op y hand hor hsides
    rw [Syntax.Expr.mapSpans, predicate_plain hand hor (by rw [filterSides_mapSpans, hsides]; rfl)]
    exact condition_relates (expr_moved f (.binary x opSpan op y))
  case other =>
    intro e hparen hbinary
    have h : Relates (SameRows apart) Eq (condition (expr e) e.span env)
        (condition (expr (e.mapSpans f)) (e.mapSpans f).span { env with text := text }) :=
      condition_relates (expr_moved f e)
    cases e with
    | paren lparen x rparen => exact absurd rfl (hparen lparen x rparen)
    | binary x opSpan op y => exact absurd rfl (hbinary x opSpan op y)
    | _ => exact h

end States

section Stages

variable {env : Env} {text apart : String} (f : Span → Span)

/-- The same columns have unique names, or share one, at any place. -/
theorem uniqueNames_moved {cols cols' : List NamedValue} (h : SameColumns cols cols') (seen : List String) :
    Relates (SameRows apart) Eq (uniqueNames env seen cols) (uniqueNames { env with text := text } seen cols') := by
  induction h generalizing seen with
  | nil => exact Relates.pure rfl
  | cons hab _ ih =>
    simp only [uniqueNames, hab.1]
    exact Relates.ite_same (fun _ => errorAt_relates) fun _ => ih _

/-- Named columns are compiled as they are at another place, but for their own places. -/
theorem namedColumns_moved {agg : Option RateBasis} (exprs : List Syntax.NamedExpr) (i : ℕ) :
    Relates (SameRows apart) SameColumns (namedColumns env agg i exprs)
      (namedColumns { env with text := text } agg i (exprs.map (·.mapSpans f))) := by
  induction exprs generalizing i with
  | nil => exact Relates.pure .nil
  | cons e rest ih =>
    obtain ⟨name, x⟩ := e
    refine Relates.bind_eq (expr_moved f x _ _ _ _) fun x => Relates.bind (ih (i + 1)) fun cols cols' hcols => ?_
    refine Relates.pure (.cons ⟨?_, rfl⟩ hcols)
    cases name <;> rfl

/-- Columns are compiled as they are at another place, but for their own places. -/
theorem columns_moved {agg : Option RateBasis} (exprs : List Syntax.NamedExpr) :
    Relates (SameRows apart) SameColumns (columns env exprs agg)
      (columns { env with text := text } (exprs.map (·.mapSpans f)) agg) :=
  Relates.bind (namedColumns_moved f exprs 1) fun _ _ hcols =>
    Relates.bind_eq (uniqueNames_moved hcols []) fun _ => Relates.pure hcols

/-- A sort key is compiled as it is at another place. -/
theorem sortKey_moved (key : Syntax.SortKey) :
    Relates (SameRows apart) Eq (sortKey env key) (sortKey { env with text := text } (key.mapSpans f)) :=
  Relates.bind_eq (expr_moved f key.x _ _ _ _) fun _ => Relates.pure rfl

/-- Sort keys are compiled as they are at another place. -/
theorem sortKeys_moved (keys : List Syntax.SortKey) :
    Relates (SameRows apart) Eq (keys.mapM (sortKey env))
      ((keys.map (·.mapSpans f)).mapM (sortKey { env with text := text })) := by
  induction keys with
  | nil => exact Relates.pure rfl
  | cons key rest ih =>
    rw [List.map_cons, List.mapM_cons, List.mapM_cons]
    exact Relates.bind_eq (sortKey_moved f key) fun _ => Relates.bind_eq ih fun _ => Relates.pure rfl

/-- A count of rows is read the same at any place. -/
theorem rowCount_moved (lit : Syntax.BasicLit) :
    Relates (SameRows apart) Eq (rowCount lit) (rowCount (lit.mapSpans f)) := by
  simp only [rowCount, Syntax.BasicLit.mapSpans]
  cases lit.value.toNat? with
  | none => exact errorAt_relates
  | some n => exact Relates.ite_same (fun _ => Relates.pure rfl) fun _ => errorAt_relates

/-- The same aggregates are checked at any place. -/
theorem checkAggregates_moved {cols cols' : List NamedValue} (h : SameColumns cols cols')
    (exprs : List Syntax.NamedExpr) :
    Relates (SameRows apart) Eq (checkAggregates cols exprs) (checkAggregates cols' (exprs.map (·.mapSpans f))) := by
  induction h generalizing exprs with
  | nil => exact Relates.pure rfl
  | cons hab _ ih =>
    cases exprs with
    | nil => exact Relates.pure rfl
    | cons e es =>
      simp only [List.map_cons, checkAggregates, hab.2]
      exact Relates.ite_same (fun _ => ih es) fun _ => errorAt_relates

/-- The same scope is set. -/
theorem setScope_moved {scope scope' : Scope} (h : scope = scope') :
    Relates (SameRows apart) Eq (setScope scope) (setScope scope') :=
  Relates.modify fun _ _ hst => ⟨h, hst.tail, hst.parameters, hst.readOrder, hst.names⟩

/-- A stage compiles alike after the same stages, wherever it is. -/
theorem stage_moved {before before' : List Stage} (hbefore : SameStages before before') {s s' : Syntax.Stage}
    (hs : s.MovesTo s') : Relates (SameRows apart) (fun a b => a.unplaced = b.unplaced) (stage env before s)
      (stage { env with text := text } before' s') := by
  obtain ⟨f, pipe, rfl⟩ := hs
  cases s with
  | whereStage _ _ p => exact Relates.bind_eq (predicate_moved f p) fun _ => Relates.pure rfl
  | searchTextStage _ _ term =>
    refine Relates.bind Relates.get fun s t hst => ?_
    rw [hst.tail]
    exact Relates.ite_same (fun _ => errorAt_relates) fun _ => Relates.pure rfl
  | searchParamStage _ _ p =>
    refine Relates.bind Relates.get fun s t hst => ?_
    rw [hst.tail]
    refine Relates.ite_same (fun _ => errorAt_relates) fun _ => ?_
    exact Relates.bind_eq (valuesOf_moved f p) fun _ => Relates.pure rfl
  | projectStage _ _ cols =>
    refine Relates.bind (columns_moved f cols) fun cols cols' hcols => ?_
    exact Relates.bind_eq (setScope_moved (by rw [hcols.columnsOf])) fun _ =>
      Relates.pure (by rw [Stage.unplaced, Stage.unplaced, hcols.unplaced])
  | extendStage _ _ cols =>
    refine Relates.bind (columns_moved f cols) fun cols cols' hcols => ?_
    refine Relates.bind_eq (Relates.modify fun s t h => ⟨?_, h.tail, h.parameters, h.readOrder, h.names⟩) fun _ =>
      Relates.pure (by rw [Stage.unplaced, Stage.unplaced, hcols.unplaced])
    rw [h.scope, hcols.columnsOf]
  | summarizeStage _ _ aggs cols =>
    refine Relates.bind (columns_moved f cols) fun columnsBy columnsBy' hby => ?_
    refine Relates.bind Relates.get fun s t hst => ?_
    rw [hst.scope, rateBasisOf_same hbefore hby]
    refine Relates.bind (columns_moved f aggs) fun aggregates aggregates' haggs => ?_
    refine Relates.bind_eq (checkAggregates_moved f haggs aggs) fun _ => ?_
    have hboth : SameColumns (columnsBy ++ aggregates) (columnsBy' ++ aggregates') := 
      List.rel_append hby haggs
    have hempty : columnsBy.isEmpty = columnsBy'.isEmpty := by
      cases hby <;> rfl
    have hempty' : aggregates.isEmpty = aggregates'.isEmpty := by
      cases haggs <;> rfl
    simp only [hempty, hempty']
    refine Relates.ite_same (fun _ => errorAt_relates) fun _ => ?_
    refine Relates.bind_eq (uniqueNames_moved hboth []) fun _ => ?_
    exact Relates.bind_eq (setScope_moved (by rw [hboth.columnsOf])) fun _ =>
      Relates.pure (by rw [Stage.unplaced, Stage.unplaced, hby.unplaced, haggs.unplaced])
  | sortStage _ _ keys => exact Relates.bind_eq (sortKeys_moved f keys) fun _ => Relates.pure rfl
  | takeStage _ _ n => exact Relates.bind_eq (rowCount_moved f n) fun _ => Relates.pure rfl
  | topStage _ _ n key =>
    exact Relates.bind_eq (rowCount_moved f n) fun _ =>
      Relates.bind_eq (sortKey_moved f key) fun _ => Relates.pure rfl
  | countStage => exact Relates.bind_eq (setScope_moved rfl) fun _ => Relates.pure rfl
  | distinctStage _ _ cols =>
    refine Relates.bind (columns_moved f cols) fun cols cols' hcols => ?_
    exact Relates.bind_eq (setScope_moved (by rw [hcols.columnsOf])) fun _ =>
      Relates.pure (by rw [Stage.unplaced, Stage.unplaced, hcols.unplaced])

end Stages

section Trees

variable {env : Env} {text apart : String}

/-- A head stage is one at any place. -/
theorem MovesTo.isHead {s s' : Syntax.Stage} (h : s.MovesTo s') : isHead s' = isHead s := by
  obtain ⟨f, pipe, rfl⟩ := h
  cases s <;> rfl

/-- Stages stay the same with the same stage in front. -/
theorem SameStages.cons {s s' : Stage} {stages stages' : List Stage} (hs : s.unplaced = s'.unplaced)
    (h : SameStages stages stages') : SameStages (s :: stages) (s' :: stages') := by
  rw [SameStages, List.map_cons, List.map_cons, hs, h]

/-- Stages stay the same with the same stages after them. -/
theorem SameStages.append {a a' b b' : List Stage} (ha : SameStages a a') (hb : SameStages b b') :
    SameStages (a ++ b) (a' ++ b') := by
  rw [SameStages, List.map_append, List.map_append, ha, hb]

/-- What does not see the places of stages is the same of stages at other places. -/
theorem SameStages.map_eq {β : Type} {stages stages' : List Stage} (h : SameStages stages stages')
    {g : Stage → β} (hg : ∀ s, g s.unplaced = g s) : stages.map g = stages'.map g := by
  have hmap : ∀ stages : List Stage, stages.map g = (stages.map Stage.unplaced).map g := fun stages => by
    rw [List.map_map]
    exact List.map_congr_left fun s _ => (hg s).symm
  rw [hmap, hmap stages', h]

/-- The stages of a head are compiled as they are at another place. -/
theorem headStages_moved {stages stages' : List Syntax.Stage}
    (h : List.Forall₂ Syntax.Stage.MovesTo stages stages') :
    Relates (SameRows apart) SameStages (headStages env stages) (headStages { env with text := text } stages') := by
  induction h with
  | nil => exact Relates.pure rfl
  | cons hs _ ih =>
    refine Relates.bind (stage_moved rfl hs) fun c c' hc => Relates.bind ih fun cs cs' hcs => Relates.pure ?_
    rw [← keepsAll_unplaced, hc, keepsAll_unplaced]
    split
    · exact hcs
    · exact hcs.cons hc

/-- The stages of a tail are compiled as they are at another place. -/
theorem tailStages_moved {before before' : List Stage} (hbefore : SameStages before before')
    {stages stages' : List Syntax.Stage} (h : List.Forall₂ Syntax.Stage.MovesTo stages stages') :
    Relates (SameRows apart) SameStages (tailStages env before stages)
      (tailStages { env with text := text } before' stages') := by
  induction h generalizing before before' with
  | nil => exact Relates.pure (by rw [SameStages, List.map_reverse, List.map_reverse, hbefore])
  | cons hs _ ih =>
    refine Relates.bind (stage_moved hbefore hs) fun c c' hc => ih ?_
    rw [← keepsAll_unplaced c, hc, keepsAll_unplaced]
    split
    · exact hbefore
    · exact hbefore.cons hc

/-- A state has its own rows. -/
theorem SameRows.refl (s : CompilerState) : SameRows apart s s := ⟨rfl, rfl, rfl, rfl, rfl⟩

/-- Having the same rows is symmetric. -/
theorem SameRows.symm {s t : CompilerState} (h : SameRows apart s t) : SameRows apart t s :=
  ⟨h.scope.symm, h.tail.symm, h.parameters.symm, h.readOrder.symm, h.names.symm⟩

/-- Having the same rows is transitive. -/
theorem SameRows.trans {s t u : CompilerState} (hst : SameRows apart s t) (htu : SameRows apart t u) :
    SameRows apart s u :=
  ⟨hst.scope.trans htu.scope, hst.tail.trans htu.tail, hst.parameters.trans htu.parameters,
    hst.readOrder.trans htu.readOrder, hst.names.trans htu.names⟩

/-- Noting that the Attribute left out is read tells no state apart. -/
theorem read_apart (t : AttributeType) (s : CompilerState) :
    ∃ s', (read t apart).run s = .ok ((), s') ∧ SameRows apart s' s := by
  refine ⟨_, rfl, ?_⟩
  beta_reduce
  rw [noteRead_eq]
  refine ⟨rfl, rfl, rfl, ?_, rfl⟩
  split
  · split
    · rfl
    · rw [List.filter_append, List.filter_cons_of_neg (by simp), List.filter_nil, List.append_nil]
  · rfl

/-- Reading every part of it does not either. -/
theorem readParts_apart (ts : List AttributeType) (s : CompilerState) :
    ∃ s', (ts.forM (read · apart)).run s = .ok ((), s') ∧ SameRows apart s' s := by
  induction ts generalizing s with
  | nil => exact ⟨s, rfl, .refl s⟩
  | cons t ts ih =>
    obtain ⟨s₁, hrun, hs₁⟩ := @read_apart apart t s
    obtain ⟨s₂, hrest, hs₂⟩ := ih s₁
    exact ⟨s₂, (run_bind_of_ok hrun).trans hrest, hs₂.trans hs₁⟩

/-- Reading the Attributes of two lists that are the same but for one. -/
theorem readAll_relates {names names' : List String}
    (h : (names.filter fun name => name ≠ apart) = names'.filter fun name => name ≠ apart) :
    Relates (SameRows apart) Eq (names.forM fun name => dynamicParts.forM (read · name))
      (names'.forM fun name => dynamicParts.forM (read · name)) := by
  have hrespects : ∀ name, Respects (SameRows apart) (dynamicParts.forM (read · name)) := fun name =>
    Respects.forM fun t => sameRows_untold.read t name
  refine Relates.forM_filter (fun _ => .refl _) (fun _ _ => .symm) (fun _ _ _ => .trans) hrespects
    (fun name hname s => ?_) h
  obtain rfl : name = apart := by simpa using hname
  exact readParts_apart dynamicParts s

/-- A column that shows an Attribute. -/
def NamedValue.shows (col : NamedValue) (name : String) : Bool :=
  match col.x with
  | .fieldRef shown builtIn _ => !builtIn && shown == name
  | _ => false

/-- Only the Attributes a table of Logs shows tell apart the columns of two that were named the same but one. -/
theorem logColumns_same {scope : Scope} {names names' : List String}
    (h : (names.filter fun name => name ≠ apart) = names'.filter fun name => name ≠ apart) :
    ((logColumns scope names).filter fun col => !col.shows apart) =
      (logColumns scope names').filter fun col => !col.shows apart := by
  have hcolumn : ∀ names : List String,
      (((names.filter fun name => (scope.lookup name).isNone).map fun name =>
        (⟨name, .fieldRef name false .dynamic, .null⟩ : NamedValue)).filter fun col => !col.shows apart) =
      ((names.filter fun name => name ≠ apart).filter fun name => (scope.lookup name).isNone).map fun name =>
        ⟨name, .fieldRef name false .dynamic, .null⟩ := fun names => by
    rw [List.filter_map, List.filter_filter, List.filter_filter]
    congr 1
    refine List.filter_congr fun name _ => ?_
    by_cases hname : name = apart <;> simp [NamedValue.shows, hname]
  simp only [logColumns, List.filter_append]
  rw [hcolumn, hcolumn, h]

/-- A Query's columns are the same but for the Attribute left out. -/
theorem output_moved : Relates (SameRows apart)
    (fun columns columns' => (columns.filter fun col => !col.shows apart) =
      columns'.filter fun col => !col.shows apart) output output := by
  refine Relates.bind Relates.get fun s t hst => ?_
  rw [hst.scope]
  refine Relates.ite_same (fun _ => Relates.bind_eq (readAll_relates ?_) fun _ =>
    Relates.pure (logColumns_same hst.names)) fun _ => Relates.pure rfl
  rw [List.filter_comm, hst.names, List.filter_comm]

/-- What two Queries have in common when their tails are the same but for places: all but the columns that
show an Attribute, and its reads. -/
structure SameRest (apart : String) (q q' : Query) : Prop where
  tail : SameStages q.tail q'.tail
  fromTime : q.fromTime = q'.fromTime
  toTime : q.toTime = q'.toTime
  parameters : q.parameters = q'.parameters
  table : q.table = q'.table
  take : q.take = q'.take
  reads : (q.reads.filter fun k => k.key ≠ apart) = q'.reads.filter fun k => k.key ≠ apart
  output : (q.output.filter fun col => !col.shows apart) = q'.output.filter fun col => !col.shows apart

/-- Making a table does not depend on places. -/
theorem makesTable_unplaced (s : Stage) : makesTable s.unplaced = makesTable s := by
  cases s <;> rfl

/-- What a tail takes does not depend on places. -/
theorem takeOf_unplaced (tail : List Stage) : takeOf (tail.map Stage.unplaced) = takeOf tail := by
  rw [takeOf, takeOf, List.foldl_map]
  congr 1
  funext take s
  cases s <;> rfl

/-- The Query of a compiled head and the stages after it. -/
def compileTail (env : Env) (stages : List Syntax.Stage) (head : List Stage) : Compiler Query := do
  let range := narrow head (env.bounds.fromTime, env.bounds.toTime)
  let env := { env with bounds := { env.bounds with fromTime := range.1, toTime := range.2 } }
  modify fun s => { s with tail := true }
  let tail ← tailStages env [] stages
  let table := tail.any makesTable
  let output ← if table then output else pure []
  let s ← get
  return {
    head, tail, fromTime := range.1, toTime := range.2, parameters := s.parameters, table
    take := takeOf tail
    reads := if table then s.readOrder else []
    output
    shape := if table then shapeOf tail output else ⟨fun _ => none, false⟩ }

/-- A Query is compiled head first, and then its tail. -/
theorem compileTree_eq (env : Env) (tree : Syntax.Query) : compileTree env tree =
    headStages env (tree.stages.takeWhile isHead) >>= compileTail env (tree.stages.dropWhile isHead) := rfl

/-- The tail after the same head is compiled as it is at another place. -/
theorem compileTail_moved {stages stages' : List Syntax.Stage} {head head' : List Stage}
    (hrange : narrow head (env.bounds.fromTime, env.bounds.toTime) =
      narrow head' (env.bounds.fromTime, env.bounds.toTime))
    (h : List.Forall₂ Syntax.Stage.MovesTo stages stages') :
    Relates (SameRows apart) (fun q q' => q.head = head ∧ q'.head = head' ∧ SameRest apart q q') (compileTail env stages head)
      (compileTail { env with text := text } stages' head') := by
  unfold compileTail
  simp only
  rw [hrange]
  generalize narrow head' (env.bounds.fromTime, env.bounds.toTime) = range
  refine Relates.bind_eq (Relates.modify fun s t hst => ⟨hst.scope, rfl, hst.parameters, hst.readOrder, hst.names⟩) fun _ => ?_
  refine Relates.bind (@tailStages_moved { env with
    bounds := { env.bounds with fromTime := range.1, toTime := range.2 } } text apart _ _ rfl _ _ h)
    fun tail tail' htail => ?_
  have hany : ∀ stages : List Stage, stages.any makesTable = (stages.map makesTable).any id :=
    fun stages => (List.any_map (l := stages) (f := makesTable) (p := id)).symm
  have htable : tail.any makesTable = tail'.any makesTable := by
    rw [hany, htail.map_eq makesTable_unplaced, hany]
  have htake : takeOf tail = takeOf tail' := by
    rw [← takeOf_unplaced, htail, takeOf_unplaced]
  rw [htable]
  refine Relates.ite_same (fun htable => Relates.bind output_moved fun columns columns' houtput => ?_) fun htable =>
    Relates.bind_eq (Relates.pure rfl) fun columns => ?_
  · refine Relates.bind Relates.get fun s t hst => Relates.pure ?_
    simp only [if_pos htable]
    exact ⟨trivial, trivial, htail, rfl, rfl, hst.parameters, rfl, htake, hst.readOrder, houtput⟩
  · refine Relates.bind Relates.get fun s t hst => Relates.pure ?_
    simp only [if_neg htable]
    exact ⟨trivial, trivial, htail, rfl, rfl, hst.parameters, rfl, htake, rfl, rfl⟩

/-- A tree whose head compiles beside another one's, and whose other stages are the other one's at other
places. -/
theorem compileQuery_beside {H : List Stage → List Stage → Prop} {tree tree' : Syntax.Query}
    (hhead : ∀ head s, (headStages env (tree.stages.takeWhile isHead)).run ⟨[], .logScope, false, [], []⟩ =
      .ok (head, s) → ∃ head' t, (headStages { env with text := text } (tree'.stages.takeWhile isHead)).run
        ⟨[], .logScope, false, [], []⟩ = .ok (head', t) ∧ H head head' ∧ SameRows apart s t)
    (hnarrow : ∀ head head', H head head' → ∀ range, narrow head range = narrow head' range)
    (htail : List.Forall₂ Syntax.Stage.MovesTo (tree.stages.dropWhile isHead) (tree'.stages.dropWhile isHead))
    {q : Query} (h : compileQuery env tree = .ok q) :
    ∃ q', compileQuery { env with text := text } tree' = .ok q' ∧ H q.head q'.head ∧ SameRest apart q q' := by
  obtain ⟨s', hrun⟩ := exists_of_run' h
  rw [compileTree_eq] at hrun
  obtain ⟨head, s, hhead₁, hrest⟩ := exists_of_run_bind hrun
  obtain ⟨head', t, hhead₂, hheads, hst⟩ := hhead head s hhead₁
  obtain ⟨q', t', hrun', ⟨rfl, rfl, hsame⟩, -⟩ :=
    (@compileTail_moved _ text apart _ _ _ _ (hnarrow _ _ hheads _) htail).exists_ok hst hrest
  refine ⟨q', ?_, hheads, hsame⟩
  rw [compileQuery, compileTree_eq]
  exact run'_of_run ((run_bind_of_ok hhead₂).trans hrun')

end Trees

end SolidTrace.LogQuery
