import SolidTrace.LogQuery.Checked
import SolidTrace.LogQuery.Reading

/-!
# What compiles

A compiled expression that no summarize is around is one of a row: it has no aggregate and no filter
set to All, and its conditions are conditions. So are the conditions of a compiled Query's wheres.
-/

namespace SolidTrace.LogQuery

section Rows

variable {lib : Library} {scope : Scope}

/-- No built-in field is a bool. -/
theorem builtInFields_ne_bool {name : String} {t : ValueType} (h : builtInFields name = some t) :
    t ≠ .bool := by
  unfold builtInFields at h
  split at h <;> cases h <;> decide

/-- What bin and floor give is a time or a number, and no other function gives a bool. -/
theorem resultType_ne_bool {fn : ScalarFunction} {args : List Expr}
    (h : CallChecked lib fn args) : resultType fn args ≠ .bool := by
  have hbin : ∀ x size, BinChecked x size → x.typ ≠ .bool := by
    rintro x size (⟨ht, -⟩ | ⟨ht, -⟩) <;> simp [ht]
  unfold CallChecked at h
  split at h
  case h_9 => exact hbin _ _ h
  case h_10 => exact hbin _ _ h
  all_goals simp_all [resultType]

/-- No arithmetic gives a bool. -/
theorem arithChecked_ne_bool {op : ArithOp} {x y t : ValueType} (h : ArithChecked op x y t) :
    t ≠ .bool := by
  rcases h with ⟨-, -, rfl⟩ | ⟨-, ⟨-, -, rfl⟩ | ⟨-, -, rfl⟩⟩ <;> decide

/-- Each of a call's arguments is of a row. -/
theorem allOfRow_iff (args : List Expr) : allOfRow args = true ↔ ∀ x ∈ args, x.ofRow = true := by
  induction args with
  | nil => simp
  | cons x rest ih => simp [ih]

/-- Outside summarize, every expression is one of a row. -/
theorem Checked.ofRow {x : Expr} (h : Checked lib scope none x) : x.ofRow = true := by
  generalize hnone : (none : Option RateBasis) = agg at h
  induction h with
  | builtIn _ _ ht => simp [builtInFields_ne_bool ht]
  | attr => simp
  | attributeText => rfl
  | jsonValueText _ _ ih => exact ih hnone
  | columnRef => rfl
  | partOf _ _ _ ih => exact ih hnone
  | literal => rfl
  | compare _ _ _ _ ihx ihy => simp [ihx hnone, ihy hnone]
  | textMatch _ _ _ ih => exact ih hnone
  | isEmpty _ ih => exact ih hnone
  | and _ _ htx hty ihx ihy => simp [ihx hnone, ihy hnone, htx, hty]
  | or _ _ htx hty ihx ihy => simp [ihx hnone, ihy hnone, htx, hty]
  | not _ htx ih => simp [ih hnone, htx]
  | arith _ _ ht ihx ihy => simp [ihx hnone, ihy hnone, arithChecked_ne_bool ht]
  | negative _ ht ih =>
    rcases ht with ht | ht
    · simp [ih hnone, ht]
    · simp [ih hnone, ht]
  | call _ hcall ht ih =>
    simp only [Expr.ofRow, Bool.and_eq_true, allOfRow_iff, bne_iff_ne, ht]
    exact ⟨fun x hx => ih x hx hnone, resultType_ne_bool hcall⟩
  | parsedJSON _ _ ih => exact ih hnone
  | member _ _ ih => exact ih hnone
  | count => cases hnone
  | rate => cases hnone
  | peakRate => cases hnone
  | aggregateOf => cases hnone

end Rows

section Wheres

variable {env : Env}

/-- A condition is one of a row, and of type bool. -/
def IsCondition (x : Expr) : Prop := x.ofRow = true ∧ x.typ = .bool

/-- Every where of some stages has a condition. -/
def WheresAreConditions (stages : List Stage) : Prop :=
  ∀ p, .whereStage p ∈ stages → IsCondition p

/-- Each stage of a tail is checked where it stands. -/
theorem TailChecked.mem {lib : Library} {before : List Stage} {scope : Scope} {stages : List Stage}
    (h : TailChecked lib before scope stages) {s : Stage} (hs : s ∈ stages) :
    ∃ before scope, StageChecked lib before scope s := by
  induction stages generalizing before scope with
  | nil => cases hs
  | cons s' rest ih =>
    rcases List.mem_cons.1 hs with rfl | hs
    · exact ⟨before, scope, h.1⟩
    · exact ih h.2 hs

/-- The wheres of a compiled Query have conditions. -/
theorem compileQuery_wheres {tree : Syntax.Query} {q : Query} (h : compileQuery env tree = .ok q) :
    WheresAreConditions (q.head ++ q.tail) := by
  have hq := compileQuery_checked h
  have htest : ∀ before scope p, StageChecked env.lib before scope (.whereStage p) → IsCondition p :=
    fun _ _ p hp => ⟨hp.1.ofRow, hp.2⟩
  intro p hp
  rcases List.mem_append.1 hp with hp | hp
  · exact htest _ _ p (hq.head _ hp).2
  · obtain ⟨before, scope, hchecked⟩ := hq.tail.mem hp
    exact htest before scope p hchecked

end Wheres

end SolidTrace.LogQuery
