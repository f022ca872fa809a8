import SolidTrace.LogQuery.Writable

/-!
# The columns that rates read

rate() and peak_rate() are written as aggregates of columns that a summarize adds to the rows it reads,
when it finds them in its aggregates. It looks under arithmetic, minus, scalar functions and parse_json,
and nowhere else, while they compile under a test or a path as well.
-/

namespace SolidTrace.LogQuery

section Relations

/-- The columns of a statement's rows, over a relation of some columns. -/
def Select.columns (s : Select) (source : List String) : List String :=
  (match s.star with
    | some except => source.filter fun name => !except.contains name
    | none => []) ++ s.items.map Prod.snd

def Cte.columns (cte : Cte) (source : List String) : List String :=
  cte.outer.columns (match cte.inner with
    | some inner => inner.columns source
    | none => source)

/-- The columns of the last relation of a chain over a source of some columns. -/
def ctesColumns (source : List String) (ctes : List Cte) : List String :=
  ctes.foldl (fun columns cte => cte.columns columns) source

/-- The columns after one CTE more. -/
theorem ctesColumns_append_singleton (source : List String) (ctes : List Cte) (cte : Cte) :
    ctesColumns source (ctes ++ [cte]) = cte.columns (ctesColumns source ctes) := by
  simp [ctesColumns]

/-- The columns of the relation that the last statement of a chain reads. -/
def Chain.lastReads (c : Chain) (source : List String) : List String :=
  ctesColumns source c.ctes.dropLast

end Relations

section Aggregates

variable (fn : AggregateFunction)

mutual

/-- Whether an aggregate of a function occurs anywhere in an expression. -/
def Expr.occurs : Expr → Bool
  | .fieldRef _ _ _ => false
  | .attributeText _ => false
  | .jsonValueText x => x.occurs
  | .columnRef _ _ _ => false
  | .partOf x _ => x.occurs
  | .literal _ => false
  | .compare x _ y => x.occurs || y.occurs
  | .textMatch _ x _ _ => x.occurs
  | .isEmpty x => x.occurs
  | .always => false
  | .and x y => x.occurs || y.occurs
  | .or x y => x.occurs || y.occurs
  | .not x => x.occurs
  | .arith _ x y _ => x.occurs || y.occurs
  | .negative x => x.occurs
  | .call _ args _ => anyOccurs args
  | .parsedJSON x => x.occurs
  | .member x _ => x.occurs
  | .aggregate f (some x) _ _ => f == fn || x.occurs
  | .aggregate f none _ _ => f == fn

def anyOccurs : List Expr → Bool
  | [] => false
  | x :: rest => x.occurs || anyOccurs rest

end

/-- An aggregate of a function occurs outside every test and path: under nothing but arithmetic, minus,
scalar functions and parse_json. -/
inductive OutsideTests : Expr → Prop
  | aggregate {x : Option Expr} {percent : ℚ} {t : ValueType} : OutsideTests (.aggregate fn x percent t)
  | arithLeft {op : ArithOp} {x y : Expr} {t : ValueType} (hx : OutsideTests x) :
      OutsideTests (.arith op x y t)
  | arithRight {op : ArithOp} {x y : Expr} {t : ValueType} (hy : OutsideTests y) :
      OutsideTests (.arith op x y t)
  | negative {x : Expr} (hx : OutsideTests x) : OutsideTests (.negative x)
  | call {f : ScalarFunction} {args : List Expr} {t : ValueType} {x : Expr} (hmem : x ∈ args)
      (hx : OutsideTests x) : OutsideTests (.call f args t)
  | parsedJSON {x : Expr} (hx : OutsideTests x) : OutsideTests (.parsedJSON x)

/-- Some expression has an aggregate when one of them does. -/
theorem anyHasAggregate_iff {fn : Option AggregateFunction} (xs : List Expr) :
    anyHasAggregate fn xs = true ↔ ∃ x ∈ xs, hasAggregate fn x = true := by
  induction xs with
  | nil => simp [anyHasAggregate]
  | cons x rest ih => simp [anyHasAggregate, ih]

variable {fn}

/-- An aggregate outside of tests is one. -/
theorem OutsideTests.hasAggregate {x : Expr} (h : OutsideTests fn x) :
    hasAggregate (some fn) x = true := by
  induction h with
  | aggregate => simp [LogQuery.hasAggregate]
  | arithLeft _ ih => simp [LogQuery.hasAggregate, ih]
  | arithRight _ ih => simp [LogQuery.hasAggregate, ih]
  | negative _ ih => simpa [LogQuery.hasAggregate] using ih
  | call hmem _ ih =>
    simp only [LogQuery.hasAggregate]
    exact (anyHasAggregate_iff _).2 ⟨_, hmem, ih⟩
  | parsedJSON _ ih => simpa [LogQuery.hasAggregate] using ih

mutual

/-- An aggregate of an expression stands outside of tests somewhere in it. -/
theorem outsideTests_of_hasAggregate : ∀ x : Expr, hasAggregate (some fn) x = true → OutsideTests fn x
  | .aggregate f _ _ _, h => by
    have hf : fn = f := by simpa [hasAggregate] using h
    subst hf
    exact .aggregate
  | .arith _ x y _, h => by
    simp only [hasAggregate, Bool.or_eq_true] at h
    exact h.elim (fun h => .arithLeft (outsideTests_of_hasAggregate x h))
      fun h => .arithRight (outsideTests_of_hasAggregate y h)
  | .negative x, h => .negative (outsideTests_of_hasAggregate x h)
  | .call _ args _, h => by
    obtain ⟨x, hmem, hx⟩ := outsideTests_of_anyHasAggregate args h
    exact .call hmem hx
  | .parsedJSON x, h => .parsedJSON (outsideTests_of_hasAggregate x h)

/-- An aggregate of some expressions stands outside of tests in one of them. -/
theorem outsideTests_of_anyHasAggregate :
    ∀ xs : List Expr, anyHasAggregate (some fn) xs = true → ∃ x ∈ xs, OutsideTests fn x
  | x :: rest, h => by
    simp only [anyHasAggregate, Bool.or_eq_true] at h
    rcases h with h | h
    · exact ⟨x, List.mem_cons_self, outsideTests_of_hasAggregate x h⟩
    · obtain ⟨y, hmem, hy⟩ := outsideTests_of_anyHasAggregate rest h
      exact ⟨y, List.mem_cons_of_mem _ hmem, hy⟩

end

/-- The columns are added for the rates that occur outside tests. -/
theorem usesAggregate_iff (columns : List NamedValue) :
    usesAggregate columns fn = true ↔ ∃ col ∈ columns, OutsideTests fn col.x := by
  simp only [usesAggregate, List.any_eq_true]
  constructor
  · exact fun ⟨col, hcol, h⟩ => ⟨col, hcol, outsideTests_of_hasAggregate col.x h⟩
  · exact fun ⟨col, hcol, h⟩ => ⟨col, hcol, h.hasAggregate⟩

end Aggregates

section Summarize

variable (lib : Library) (on : String → Fields) (q : Query) (before : List Stage) (c : Chain)
  (columnsBy aggregates : List NamedValue) (source : List String)

/-- The rates, and the columns they are written as aggregates of. -/
def rateSources : List (AggregateFunction × String) :=
  [(.rate, binSecondsColumn), (.peakRate, secondCountColumn)]

/-- Every rate that occurs in aggregates has its column in a relation. -/
def RatesThere (columns : List String) : Prop :=
  ∀ rate ∈ rateSources, (∃ col ∈ aggregates, col.x.occurs rate.1 = true) → rate.2 ∈ columns

/-- Every rate that occurs in aggregates occurs in one of them outside tests and paths, or the rows have
a column of its column's name already. -/
def RatesFound (rows : List String) : Prop :=
  ∀ rate ∈ rateSources, (∃ col ∈ aggregates, col.x.occurs rate.1 = true) →
    (∃ col ∈ aggregates, OutsideTests rate.1 col.x) ∨ rate.2 ∈ rows

/-- A summarize reads the rows so far, with the columns of its rates. -/
theorem summarize_lastReads :
    (writeStage lib on q before c (.summarizeStage columnsBy aggregates)).lastReads source =
      ctesColumns source c.ctes ++
        (rateColumns lib q before columnsBy aggregates (on c.prev)).map Prod.snd := by
  simp only [writeStage]
  split
  next hnone =>
    have hrates := List.isEmpty_iff.1 hnone
    simp [Chain.lastReads, Chain.add, hrates]
  · simp [Chain.lastReads, Chain.add, ctesColumns_append_singleton, Cte.columns, Select.columns,
      Select.all]

/-- The column of a rate is there when an aggregate uses it. -/
theorem mem_rateColumns_iff {rate : AggregateFunction × String} (hrate : rate ∈ rateSources) (f : Fields) :
    rate.2 ∈ (rateColumns lib q before columnsBy aggregates f).map Prod.snd ↔
      usesAggregate aggregates rate.1 = true := by
  have hne : binSecondsColumn ≠ secondCountColumn := by decide
  simp only [rateSources, List.mem_cons, List.not_mem_nil, or_false] at hrate
  rcases hrate with rfl | rfl
  · cases hrate : usesAggregate aggregates .rate <;> cases hpeak : usesAggregate aggregates .peakRate <;>
      simp [rateColumns, hrate, hpeak, hne]
  · cases hrate : usesAggregate aggregates .rate <;> cases hpeak : usesAggregate aggregates .peakRate <;>
      simp [rateColumns, hrate, hpeak, hne.symm]

/-- The relation a summarize reads has the columns of its rates when each of them is found. -/
theorem rates_there_iff :
    RatesThere aggregates
        ((writeStage lib on q before c (.summarizeStage columnsBy aggregates)).lastReads source) ↔
      RatesFound aggregates (ctesColumns source c.ctes) := by
  unfold RatesThere RatesFound
  refine forall_congr' fun rate => forall_congr' fun hrate => imp_congr_right fun _ => ?_
  rw [summarize_lastReads, List.mem_append, mem_rateColumns_iff lib q before columnsBy aggregates hrate,
    usesAggregate_iff, or_comm]

/-- `summarize n = count() + toint(rate() > 5)`. -/
private def busyTree : Syntax.Query :=
  ⟨none, [.summarizeStage .null .null [⟨some ⟨"n", .null, false⟩,
    Sample.binary .plus (Sample.call "count" [])
      (Sample.call "toint" [Sample.binary .gt (Sample.call "rate" []) (Sample.number "5")])⟩] []]⟩

/-- Whether a Query is a summarize whose rate() finds no column in the Logs that the table is made of. -/
private def missesRate (q : Query) : Bool :=
  match q.tail with
  | [.summarizeStage columnsBy aggregates] =>
    let c := writeStage fewNumbers tailFields q [] (.logs sourceRelation)
      (.summarizeStage columnsBy aggregates)
    let source := (q.select (clickHouseColumns none)).map Prod.snd
    aggregates.any (fun col => col.x.occurs .rate) && !(c.lastReads source).contains binSecondsColumn
  | _ => false

/-- A rate inside a comparison finds no column. -/
theorem rates_missing_busy : ∃ q columnsBy aggregates,
    compileQuery Sample.env busyTree = .ok q ∧ q.tail = [.summarizeStage columnsBy aggregates] ∧
      ¬ RatesThere aggregates ((writeStage fewNumbers tailFields q [] (.logs sourceRelation)
        (.summarizeStage columnsBy aggregates)).lastReads
          ((q.select (clickHouseColumns none)).map Prod.snd)) := by
  obtain ⟨q, hq, hmisses⟩ := @Sample.exists_of_compilesTo busyTree missesRate (by decide +kernel)
  unfold missesRate at hmisses
  split at hmisses
  next columnsBy aggregates htail =>
    refine ⟨q, columnsBy, aggregates, hq, htail, fun hthere => ?_⟩
    simp only [Bool.and_eq_true, List.any_eq_true, Bool.not_eq_true', List.contains_eq_mem,
      decide_eq_false_iff_not] at hmisses
    exact hmisses.2 (hthere (.rate, binSecondsColumn) List.mem_cons_self hmisses.1)
  · cases hmisses

end Summarize

end SolidTrace.LogQuery
