import SolidTrace.Lib.Yields
import SolidTrace.LogQuery.Stages
import SolidTrace.LogQuery.Write

/-!
# Narrowing the range

The leading conditions on time narrow the range a Query reads. Times are compared in microseconds,
truncated, however precisely the Query writes them. Narrowing only leaves out Logs that the head
leaves out as well.
-/

namespace SolidTrace.LogQuery

namespace Sql

variable {ch : ClickHouse} {group : List Row} {row : Row}

/-- A bool holds when it is true. -/
@[simp]
theorem holds_bool {b : Bool} : holds ch group row (.bool b) ↔ b = true := by
  simp [holds, Sql.bool, eval, truth]

/-- A conjunction holds when both sides do. -/
@[simp]
theorem holds_and {x y : Sql} :
    holds ch group row (.fn .and [x, y]) ↔ holds ch group row x ∧ holds ch group row y := by
  simp [holds, eval, evalAll, Fn.eval]

/-- A disjunction holds when one side does. -/
@[simp]
theorem holds_or {x y : Sql} :
    holds ch group row (.fn .or [x, y]) ↔ holds ch group row x ∨ holds ch group row y := by
  simp [holds, eval, evalAll, Fn.eval]

/-- A row passes several conditions when it passes each. -/
theorem holds_conjunction {xs : List Sql} :
    holds ch group row (conjunction xs) ↔ ∀ x ∈ xs, holds ch group row x := by
  induction xs with
  | nil => simp [conjunction]
  | cons x rest ih =>
    cases rest with
    | nil => simp [conjunction]
    | cons y rest => simp [conjunction, ih]

/-- A row passes one of several conditions when it passes some of them. -/
theorem holds_disjunction {xs : List Sql} :
    holds ch group row (disjunction xs) ↔ ∃ x ∈ xs, holds ch group row x := by
  induction xs with
  | nil => simp [disjunction]
  | cons x rest ih =>
    cases rest with
    | nil => simp [disjunction]
    | cons y rest => simp [disjunction, ih]

end Sql

section Head

variable (ch : ClickHouse) (lib : Library) (cols : Columns)

/-- Whether a Log passes a Query's head. -/
def Query.passesHead (q : Query) (row : Sql.Row) : Prop :=
  ∀ w ∈ q.where lib cols, w.holds ch [] row

/-- The condition a scan of `[range.1, range.2)` puts on a Log's time. -/
def rangeCondition (range : ℤ × ℤ) : Sql :=
  .fn .and [.fn .greaterOrEquals [cols.builtIn "time", writeLiteral (.dateTime range.1)],
    .fn .less [cols.builtIn "time", writeLiteral (.dateTime range.2)]]

variable {ch lib cols}

/-- A row passes a head when the condition of each stage holds of it. -/
theorem Query.passesHead_iff {q : Query} {row : Sql.Row} :
    q.passesHead ch lib cols row ↔
      ∀ s ∈ q.head, ∀ w ∈ headCondition lib cols s, w.holds ch [] row := by
  unfold Query.passesHead Query.where
  cases h : q.head.filterMap (headCondition lib cols) with
  | nil =>
    simp only [allOf, Option.mem_def, reduceCtorEq, false_implies, implies_true, true_iff]
    intro s hs w hw
    have hmem : w ∈ q.head.filterMap (headCondition lib cols) := List.mem_filterMap.2 ⟨s, hs, hw⟩
    simp [h] at hmem
  | cons x xs =>
    simp only [allOf, Option.mem_def, Option.some.injEq, forall_eq', Sql.holds_conjunction]
    rw [← h]
    constructor
    · intro hall s hs w hw
      exact hall w (List.mem_filterMap.2 ⟨s, hs, hw⟩)
    · intro hall w hw
      obtain ⟨s, hs, hsw⟩ := List.mem_filterMap.1 hw
      exact hall s hs w hsw

end Head

section Times

/-- Whether a whole microsecond is in a range, as SQL compares them. -/
def within (range : ℤ × ℤ) (micros : ℤ) : Prop :=
  range.1 / 1000 ≤ micros ∧ micros < range.2 / 1000

instance (range : ℤ × ℤ) (micros : ℤ) : Decidable (within range micros) :=
  inferInstanceAs (Decidable (_ ∧ _))

variable {ch : ClickHouse} {group : List Sql.Row} {row : Sql.Row}

/-- What an operator says of two microseconds. -/
def CompareOp.ofTimes : CompareOp → ℤ → ℤ → Prop
  | .eq, s, t => s = t
  | .ne, s, t => s ≠ t
  | .lt, s, t => s < t
  | .le, s, t => s ≤ t
  | .gt, s, t => s > t
  | .ge, s, t => s ≥ t

/-- A comparison flipped holds of the times flipped. -/
theorem CompareOp.flipped_ofTimes {op : CompareOp} {s t : ℤ} :
    op.flipped.ofTimes s t ↔ op.ofTimes t s := by
  cases op <;> simp [CompareOp.flipped, CompareOp.ofTimes, eq_comm]

/-- A comparison of two times is one of their microseconds. -/
theorem holds_timeTest {x y : Sql} {s t : ℤ} (op : CompareOp)
    (hx : x.eval ch group row = some (.time s)) (hy : y.eval ch group row = some (.time t)) :
    Sql.holds ch group row (.fn op.fn [x, y]) ↔ op.ofTimes s t := by
  cases op <;>
    simp [Sql.holds, Sql.eval, Sql.evalAll, CompareOp.fn, Fn.eval, Fn.eval.order, hx, hy, truth,
      CompareOp.ofTimes, Value.time_lt_time, Value.time_le_time]

/-- A literal time is one in whole microseconds. -/
theorem eval_dateTime {t : ℤ} :
    (writeLiteral (.dateTime t)).eval ch group row = some (.time (t / 1000)) := by
  simp [writeLiteral, Sql.eval]

/-- A scan of a range reads the Logs within it. -/
theorem holds_rangeCondition {cols : Columns} {range : ℤ × ℤ} {micros : ℤ}
    (htime : (cols.builtIn "time").eval ch group row = some (.time micros)) :
    Sql.holds ch group row (rangeCondition cols range) ↔ within range micros := by
  have hfrom := holds_timeTest .ge htime (eval_dateTime (t := range.1))
  have hto := holds_timeTest .lt htime (eval_dateTime (t := range.2))
  unfold rangeCondition within
  rw [Sql.holds_and]
  exact and_congr hfrom hto

end Times

section Narrowing

variable {ch : ClickHouse} {lib : Library} {cols : Columns} {group : List Sql.Row} {row : Sql.Row}

/-- A row passes a comparison only if the values compare so. A negated equality of a column is out:
it is no comparison of the values. -/
theorem holds_compareTest {x y : Expr} {op : CompareOp} {wx wy : Written} {s t : ℤ}
    (hcolumn : stringColumnCompare cols.toFields x y = none)
    (hx : wx.value.eval ch group row = some (.time s))
    (hy : wy.value.eval ch group row = some (.time t)) (hne : op ≠ .ne)
    (h : Sql.holds ch group row (writeCompare cols.toFields x op y wx wy false)) :
    op.ofTimes s t := by
  rw [← holds_timeTest op hx hy]
  unfold writeCompare at h
  cases op
  case eq =>
    simp only [CompareOp.isEquality, hcolumn, Bool.true_and] at h
    split at h
    · simp at h
    · simpa [CompareOp.fn] using h
  case ne => exact absurd rfl hne
  all_goals simpa [CompareOp.isEquality, CompareOp.fn, testOf] using h

/-- The condition a bound is read from holds of a Log only if its time meets the bound. -/
theorem timeBound_sound {x y : Expr} {op op' : CompareOp} {t micros : ℤ}
    (hbound : timeBound x op y = some (op', t)) (hne : op' ≠ .ne)
    (htime : (cols.builtIn "time").eval ch group row = some (.time micros))
    (h : Sql.holds ch group row (writeCondition lib cols.toFields (.compare x op y) false)) :
    op'.ofTimes micros (t / 1000) := by
  simp only [writeCondition, write, Written.ofTest] at h
  unfold timeBound at hbound
  split at hbound
  · simp only [Option.some.injEq, Prod.mk.injEq] at hbound
    obtain ⟨rfl, rfl⟩ := hbound
    refine holds_compareTest ?_ ?_ ?_ hne h
    · simp [stringColumnCompare]
    · simpa [write, writeFieldRef] using htime
    · exact eval_dateTime
  · simp only [Option.some.injEq, Prod.mk.injEq] at hbound
    obtain ⟨rfl, rfl⟩ := hbound
    rw [CompareOp.flipped_ofTimes]
    refine holds_compareTest ?_ ?_ ?_ ?_ h
    · simp [stringColumnCompare]
    · exact eval_dateTime
    · simpa [write, writeFieldRef] using htime
    · intro hop
      exact hne (by rw [hop, CompareOp.flipped])
  · simp at hbound

/-- Narrowing by a condition leaves out only Logs it does not hold of. -/
theorem within_narrowBy {p : Expr} {micros : ℤ}
    (htime : (cols.builtIn "time").eval ch group row = some (.time micros))
    (h : Sql.holds ch group row (writeCondition lib cols.toFields p false)) (range : ℤ × ℤ) :
    within (narrowBy range p) micros ↔ within range micros := by
  fun_induction narrowBy range p with
  | case1 range x y ihx ihy =>
    simp only [writeCondition, write, Written.ofTest, andCondition, Bool.false_eq_true,
      if_false, Sql.holds_and] at h
    rw [ihy h.2, ihx h.1]
  | case2 | case8 | case9 => rfl
  | case3 | case4 | case5 | case6 | case7 =>
    have hmet := timeBound_sound ‹timeBound _ _ _ = _› (by decide) htime h
    simp only [within, CompareOp.ofTimes] at *
    omega

/-- Narrowing only shortens a range. -/
theorem narrowBy_le (p : Expr) (range : ℤ × ℤ) :
    range.1 ≤ (narrowBy range p).1 ∧ (narrowBy range p).2 ≤ range.2 := by
  fun_induction narrowBy range p with
  | case1 range x y ihx ihy => omega
  | case2 | case8 | case9 => exact ⟨le_refl _, le_refl _⟩
  | case3 | case4 | case5 | case6 | case7 => simp

/-- What a stage of the head narrows a range to. -/
private def narrowStage (range : ℤ × ℤ) : Stage → ℤ × ℤ
  | .whereStage p => narrowBy range p
  | _ => range

/-- A range is narrowed by each stage of the head, and not below nothing. -/
private theorem narrow_eq (head : List Stage) (range : ℤ × ℤ) :
    narrow head range =
      if range.1 == zeroTime && range.2 == zeroTime then range
      else ((head.foldl narrowStage range).1, max (head.foldl narrowStage range).1
        (head.foldl narrowStage range).2) := by
  have hfold : narrow head range =
      if range.1 == zeroTime && range.2 == zeroTime then range
      else ((head.foldl narrowStage range).1,
        if (head.foldl narrowStage range).2 < (head.foldl narrowStage range).1
        then (head.foldl narrowStage range).1 else (head.foldl narrowStage range).2) := rfl
  rw [hfold]
  simp only [max_def, ← not_le, ite_not]

/-- Narrowing does not widen a range. -/
private theorem foldl_narrowStage_le (head : List Stage) (range : ℤ × ℤ) :
    range.1 ≤ (head.foldl narrowStage range).1 ∧ (head.foldl narrowStage range).2 ≤ range.2 := by
  induction head generalizing range with
  | nil => exact ⟨le_refl _, le_refl _⟩
  | cons s rest ih =>
    have hrest := ih (narrowStage range s)
    have hstep : range.1 ≤ (narrowStage range s).1 ∧ (narrowStage range s).2 ≤ range.2 := by
      cases s <;> first | exact narrowBy_le _ range | exact ⟨le_refl _, le_refl _⟩
    rw [List.foldl_cons]
    omega

/-- A row that passes the head lies in the narrowed range. -/
private theorem within_foldl_narrowStage {head : List Stage} {micros : ℤ}
    (htime : (cols.builtIn "time").eval ch group row = some (.time micros))
    (h : ∀ s ∈ head, ∀ w ∈ headCondition lib cols s, w.holds ch group row) (range : ℤ × ℤ) :
    within (head.foldl narrowStage range) micros ↔ within range micros := by
  induction head generalizing range with
  | nil => rfl
  | cons s rest ih =>
    rw [List.foldl_cons, ih fun s hs => h s (List.mem_cons_of_mem _ hs)]
    cases s <;> try rfl
    exact within_narrowBy htime (h _ List.mem_cons_self _ rfl) range

/-- A narrowed range is within the range it was. -/
theorem narrow_subset {head : List Stage} {range : ℤ × ℤ} {t : ℤ}
    (h : (narrow head range).1 ≤ t ∧ t < (narrow head range).2) : range.1 ≤ t ∧ t < range.2 := by
  have hle := foldl_narrowStage_le head range
  rw [narrow_eq] at h
  split at h
  · exact h
  · simp only at h
    omega

/-- Of the Logs that pass a head, a narrowed range has those of the range it was. -/
theorem within_narrow {head : List Stage} {micros : ℤ}
    (htime : (cols.builtIn "time").eval ch group row = some (.time micros))
    (h : ∀ s ∈ head, ∀ w ∈ headCondition lib cols s, w.holds ch group row) (range : ℤ × ℤ) :
    within (narrow head range) micros ↔ within range micros := by
  rw [narrow_eq]
  split
  · rfl
  · rw [← within_foldl_narrowStage htime h range]
    simp only [within]
    omega

end Narrowing

section Compiled

/-- A compiled Query reads the range its head narrows its bounds to. -/
theorem compileQuery_range {env : Env} {tree : Syntax.Query} {q : Query}
    (h : compileQuery env tree = .ok q) :
    (q.fromTime, q.toTime) = narrow q.head (env.bounds.fromTime, env.bounds.toTime) := by
  refine Yields.run' (x := compileTree env tree)
    (P := fun q => (q.fromTime, q.toTime) =
      narrow q.head (env.bounds.fromTime, env.bounds.toTime)) ?_ h
  unfold compileTree
  refine .seq fun head => .seq fun _ => .seq fun tail => ?_
  refine .ite (fun _ => .seq fun output => .seq fun s => .pure ?_)
    (fun _ => .seq fun output => .seq fun s => .pure ?_)
  all_goals rfl

/-- Range is within the bounds, and of the Logs of the bounds it leaves out only those the head
leaves out. -/
theorem range_keepsHead {env : Env} {tree : Syntax.Query} {q : Query}
    (h : compileQuery env tree = .ok q) :
    (∀ t, q.fromTime ≤ t ∧ t < q.toTime → env.bounds.fromTime ≤ t ∧ t < env.bounds.toTime) ∧
    ∀ (ch : ClickHouse) (cols : Columns) (row : Sql.Row) (micros : ℤ),
      (cols.builtIn "time").eval ch [] row = some (.time micros) →
      ((rangeCondition cols (q.fromTime, q.toTime)).holds ch [] row ∧
          q.passesHead ch env.lib cols row ↔
        (rangeCondition cols (env.bounds.fromTime, env.bounds.toTime)).holds ch [] row ∧
          q.passesHead ch env.lib cols row) := by
  have hrange := compileQuery_range h
  constructor
  · intro t ht
    apply @narrow_subset q.head (env.bounds.fromTime, env.bounds.toTime) t
    rw [← hrange]
    exact ht
  · intro ch cols row micros htime
    rw [holds_rangeCondition htime, holds_rangeCondition htime, and_congr_left_iff]
    intro hhead
    rw [hrange]
    exact within_narrow htime (Query.passesHead_iff.1 hhead) _

/-- The library on a Query whose only literal is a time of half a microsecond. -/
private def halfMicrosecond : Library :=
  { Library.readsNothing with
    parseDateTime text := if text == "1970-01-01T00:00:00.0000055Z" then some 5500 else none }

/-- Bounds from 3 to 9 microseconds. -/
private def laterEnv : Env :=
  ⟨halfMicrosecond, "", ⟨3000, 9000, 20000⟩, 20000, fun _ => [], false⟩

/-- `where time > datetime(1970-01-01T00:00:00.0000055Z)`. -/
private def laterLogs : Syntax.Query :=
  ⟨none, [.whereStage .null .null (.binary (.ident ⟨"time", .null, false⟩) .null .gt
    (.basicLit ⟨.null, .dateTime, "1970-01-01T00:00:00.0000055Z"⟩))]⟩

private def laterQuery : Query where
  head := [.whereStage (.compare (.fieldRef "time" true .time) .gt (.literal (.dateTime 5500)))]
  tail := []
  fromTime := 6500
  toTime := 9000
  parameters := []
  table := false
  take := none
  reads := []
  output := []
  shape := ⟨fun _ => none, false⟩

private def logAt (micros : ℤ) : Sql.Row := fun name =>
  if name == "time" then some (.time micros) else none

/-- The Log of the microsecond after the literal's passes the head, and is in the range although
the range starts later, as the range is truncated too. -/
theorem range_keepsHead_halfMicrosecond :
    compileQuery laterEnv laterLogs = .ok laterQuery ∧
    within (6500, 9000) 6 ∧
    ((rangeCondition (clickHouseColumns none) (6500, 9000)).holds ⟨fun _ _ => none, fun _ _ => none⟩
          [] (logAt 6) ∧
        laterQuery.passesHead ⟨fun _ _ => none, fun _ _ => none⟩ halfMicrosecond
          (clickHouseColumns none) (logAt 6) ↔
      (rangeCondition (clickHouseColumns none) (3000, 9000)).holds
          ⟨fun _ _ => none, fun _ _ => none⟩ [] (logAt 6) ∧
        laterQuery.passesHead ⟨fun _ _ => none, fun _ _ => none⟩ halfMicrosecond
          (clickHouseColumns none) (logAt 6)) :=
  ⟨rfl, by decide, (@range_keepsHead laterEnv laterLogs laterQuery rfl).2 _ _ (logAt 6) 6 rfl⟩

end Compiled

end SolidTrace.LogQuery
