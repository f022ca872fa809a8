import SolidTrace.LogQuery.Compiled
import SolidTrace.LogQuery.Narrow

/-!
# Conditions are two-valued but for two missing values

A condition written as SQL holds of a row when it does as documented, and its negation when it does
not, unless that turns on an equality of two missing values.
-/

namespace SolidTrace.LogQuery

section Bools

/-- A bool or NULL, as a condition is. -/
def IsBool (v : Option Value) : Prop := ofTruth (truth v) = v

/-- A missing value is a bool that is not known. -/
@[simp]
theorem isBool_none : IsBool none := rfl

/-- A bool is one. -/
@[simp]
theorem isBool_bool {b : Bool} : IsBool (some (.bool b)) := rfl

/-- A truth as a value is a bool. -/
@[simp]
theorem isBool_ofTruth {t : Option Bool} : IsBool (ofTruth t) := by
  cases t <;> rfl

/-- A known truth as a value. -/
@[simp]
theorem ofTruth_some {b : Bool} : ofTruth (some b) = some (.bool b) := rfl

/-- A bool as a truth. -/
@[simp]
theorem truth_bool {b : Bool} : truth (some (.bool b)) = some b := rfl

/-- A missing value is not known. -/
@[simp]
theorem truth_none : truth none = none := rfl

/-- A value is a bool when it is missing or one. -/
theorem isBool_iff {v : Option Value} : IsBool v ↔ v = none ∨ ∃ b, v = some (.bool b) := by
  rcases v with _ | v
  · simp
  · cases v <;> simp [IsBool, truth, ofTruth]

/-- ClickHouse's tests of text give a bool. -/
def ClickHouse.TestsAreBools (ch : ClickHouse) : Prop :=
  ∀ args, IsBool (ch.apply .matches args) ∧ IsBool (ch.apply .startsWith args)

/-- The database's own tests give bools. -/
theorem ClickHouse.TestsAreBools.ordinary {ch : ClickHouse} (h : ch.TestsAreBools) {fn : Fn}
    (hfn : fn = .matches ∨ fn = .startsWith) (args : List (Option Value)) :
    IsBool (ordinary ch fn args) := by
  unfold LogQuery.ordinary
  split
  · exact isBool_none
  · rcases hfn with rfl | rfl
    · exact (h args).1
    · exact (h args).2

end Bools

section Constants

variable {ch : ClickHouse} {group : List Sql.Row} {row : Sql.Row}

/-- What is written of an expression reads as a row's reading: every part of it evaluates so. -/
structure Reads (ch : ClickHouse) (group : List Sql.Row) (row : Sql.Row) (w : Written)
    (r : Reading) : Prop where
  value : w.value.eval ch group row = r.value
  part : ∀ t, (w.partsOf t).eval ch group row = r.part t
  json : w.jsonText.eval ch group row = r.json

/-- The part of a dynamic value is what a reading takes of it. -/
theorem eval_dynamicPart {v : Sql} {t : AttributeType} :
    (dynamicPart v t).eval ch group row = Reading.partOf (v.eval ch group row) t := by
  simp only [dynamicPart, Sql.eval, Sql.evalAll, Reading.partOf]
  cases v.eval ch group row <;> simp [Fn.eval, ordinary, Fn.readsNull]

/-- What is written for a value reads as it. -/
theorem reads_ofValue {t : ValueType} {v : Sql} {value : Option Value}
    (h : v.eval ch group row = value) : Reads ch group row (.ofValue t v) (.ofValue value) where
  value := h
  part t := by rw [Written.ofValue, eval_dynamicPart, h]; rfl
  json := by rw [Written.ofValue, eval_dynamicPart, h]; rfl

/-- A dynamic value is put together from its parts. -/
theorem eval_dynamicOf {part : AttributeType → Sql} :
    (dynamicOf part).eval ch group row =
      tupleOf (dynamicParts.map fun t => (part t).eval ch group row) := by
  simp [dynamicOf, dynamicValue, dynamicParts, Sql.eval, Sql.evalAll, Fn.eval]

/-- What is written for parts reads as they do. -/
theorem reads_ofParts {part : AttributeType → Sql} {json : Sql}
    {values : AttributeType → Option Value} {text : Option Value}
    (hpart : ∀ t, (part t).eval ch group row = values t) (hjson : json.eval ch group row = text) :
    Reads ch group row (.ofParts part json) (.ofParts values text) where
  value := by simp [Written.ofParts, Reading.ofParts, Reading.ofValue, eval_dynamicOf, hpart]
  part := hpart
  json := hjson

variable {w : Written} {r : Reading}

/-- The text of an expression is the text of its reading. -/
theorem eval_writeText (h : Reads ch group row w r) :
    (writeText w.partsOf).eval ch group row = constant ch (writeText r.written.partsOf) := by
  simp [writeText, constant, Reading.written, Sql.eval, Sql.evalAll, h.part]

/-- A text taken of an expression is the one taken of its reading. -/
theorem eval_writeToString {t : ValueType} (h : Reads ch group row w r) :
    (writeToString t w).eval ch group row = constant ch (writeToString t r.written) := by
  cases t <;>
    simp [writeToString, numberText, constant, Reading.written, Sql.text, Sql.number, Sql.eval,
      Sql.evalAll, h.value, h.part]

/-- A number taken of an expression is the one taken of its reading. -/
theorem eval_writeToNumber {t : ValueType} (h : Reads ch group row w r) :
    (writeToNumber t w).eval ch group row = constant ch (writeToNumber t r.written) := by
  cases t <;>
    simp [writeToNumber, constant, Reading.written, Sql.eval, Sql.evalAll, h.value, h.part]

/-- The part that a type reads is the reading's. -/
theorem eval_typedPart {t : ValueType} (h : Reads ch group row w r) :
    (typedPart w.partsOf t).eval ch group row = t.attributeType.bind r.part := by
  unfold typedPart
  cases t.attributeType with
  | none => simp [Sql.eval]
  | some a => exact h.part a

/-- An extract is the one of the text that is read. -/
theorem eval_writeExtract {lib : Library} {regex : String} {n : ℚ} {x : Sql} {v : Option Value}
    (h : x.eval ch group row = v) :
    (writeExtract lib regex n x).eval ch group row =
      constant ch (writeExtract lib regex n (.value v)) := by
  unfold writeExtract
  split
  · simp [constant, Sql.eval]
  · split <;> simp [constant, Sql.text, Sql.number, Sql.eval, Sql.evalAll, h]

/-- The rest of a text is that of the text that is read. -/
theorem eval_substringFrom {s wstart : Sql} {start : Expr} {vs vstart : Option Value}
    (hs : s.eval ch group row = vs) (hstart : wstart.eval ch group row = vstart) :
    (substringFrom s start wstart).eval ch group row =
      constant ch (substringFrom (.value vs) start (.value vstart)) := by
  cases start
  case literal l =>
    simp only [substringFrom]
    split <;> simp [constant, Sql.number, Sql.eval, Sql.evalAll, hs, hstart]
  all_goals simp [substringFrom, constant, Sql.number, Sql.eval, Sql.evalAll, hs, hstart]

/-- A substring is that of the text that is read. -/
theorem eval_writeSubstring {s wstart : Sql} {start : Expr} {length : Option Sql}
    {vs vstart : Option Value} {vlength : Option (Option Value)}
    (hs : s.eval ch group row = vs) (hstart : wstart.eval ch group row = vstart)
    (hlength : length.map (Sql.eval ch group row) = vlength) :
    (writeSubstring s start wstart length).eval ch group row =
      constant ch (writeSubstring (.value vs) start (.value vstart) (vlength.map .value)) := by
  have hfrom := @eval_substringFrom ch group row s wstart start vs vstart hs hstart
  unfold constant at hfrom
  subst hlength
  cases length <;>
    simp [writeSubstring, constant, Sql.number, Sql.eval, Sql.evalAll, hs, hfrom]

/-- A rounded number is that of the number that is read. -/
theorem eval_writeRound {x : Sql} {precision : Option Sql} {v : Option Value}
    {vprecision : Option (Option Value)} (h : x.eval ch group row = v)
    (hprecision : precision.map (Sql.eval ch group row) = vprecision) :
    (writeRound x precision).eval ch group row =
      constant ch (writeRound (.value v) (vprecision.map .value)) := by
  subst hprecision
  cases precision <;>
    simp [writeRound, constant, Sql.number, Sql.eval, Sql.evalAll, h]

/-- The parts of a JSON value are those of the value that is read. -/
theorem eval_jsonParts {x raw : Sql} {v vraw : Option Value} (h : x.eval ch group row = v)
    (hraw : raw.eval ch group row = vraw) (t : AttributeType) :
    (jsonParts x raw t).eval ch group row =
      constant ch (jsonParts (.value v) (.value vraw) t) := by
  cases t <;>
    simp [jsonParts, jsonIs, jsonIsIn, constant, Sql.text, Sql.eval, Sql.evalAll, h, hraw]

/-- The parts of a parsed text are those of the text that is read. -/
theorem eval_parsedParts {x : Sql} {v : Option Value} (h : x.eval ch group row = v)
    (t : AttributeType) :
    (parsedParts x t).eval ch group row = constant ch (parsedParts (.value v) t) := by
  cases t <;>
    simp [parsedParts, jsonParts, jsonIs, jsonIsIn, constant, Sql.text, Sql.eval, Sql.evalAll, h]

/-- Two lists of SQL are evaluated one after the other. -/
theorem evalAll_append (xs ys : List Sql) :
    Sql.evalAll ch group row (xs ++ ys) =
      Sql.evalAll ch group row xs ++ Sql.evalAll ch group row ys := by
  induction xs with
  | nil => rfl
  | cons x rest ih => simp [Sql.evalAll, ih]

/-- A path's arguments evaluate alike from arguments that do. -/
theorem evalAll_pathArgs {args args' : List Sql} (path : List PathStep)
    (h : Sql.evalAll ch group row args = Sql.evalAll ch [] (fun _ => none) args') :
    Sql.evalAll ch group row (pathArgs args path).1 =
        Sql.evalAll ch [] (fun _ => none) (pathArgs args' path).1 ∧
      Sql.evalAll ch group row (pathArgs args path).2 =
        Sql.evalAll ch [] (fun _ => none) (pathArgs args' path).2 := by
  induction path generalizing args args' with
  | nil => exact ⟨h, rfl⟩
  | cons step rest ih =>
    cases step with
    | key name =>
      apply ih
      simp [evalAll_append, h, Sql.evalAll, Sql.text, Sql.eval]
    | element index =>
      have hrest := @ih (args ++ [.number (if index ≥ 0 then index + 1 else index : ℤ)])
        (args' ++ [.number (if index ≥ 0 then index + 1 else index : ℤ)])
        (by simp [evalAll_append, h, Sql.evalAll, Sql.number, Sql.eval])
      refine ⟨hrest.1, ?_⟩
      simp only [pathArgs, Sql.evalAll, Sql.eval, h, Sql.text]
      rw [hrest.2]

/-- Each SQL of a list has its value. -/
theorem evalAll_length (xs : List Sql) : (Sql.evalAll ch group row xs).length = xs.length := by
  induction xs with
  | nil => rfl
  | cons x rest ih => simp [Sql.evalAll, ih]

/-- A conjunction of SQL with the same values has the same value. -/
theorem eval_conjunction {xs ys : List Sql}
    (h : Sql.evalAll ch group row xs = Sql.evalAll ch [] (fun _ => none) ys) :
    (Sql.conjunction xs).eval ch group row = constant ch (Sql.conjunction ys) := by
  induction xs generalizing ys with
  | nil =>
    cases ys with
    | nil => rfl
    | cons y ys => simp [Sql.evalAll] at h
  | cons x xs ih =>
    cases ys with
    | nil => simp [Sql.evalAll] at h
    | cons y ys =>
      simp only [Sql.evalAll, List.cons.injEq] at h
      cases xs with
      | nil =>
        cases ys with
        | nil => exact h.1
        | cons _ _ => simp [Sql.evalAll] at h
      | cons x' xs =>
        cases ys with
        | nil => simp [Sql.evalAll] at h
        | cons y' ys =>
          have hrest := ih h.2
          unfold constant at hrest
          simp [Sql.conjunction, constant, Sql.eval, Sql.evalAll, h.1, hrest]

/-- A member is that of the value that is read. -/
theorem eval_writeMember {x : Sql} {v : Option Value} (path : List PathStep)
    (h : x.eval ch group row = v) :
    (writeMember x path).eval ch group row = constant ch (writeMember (.value v) path) := by
  have hargs := @evalAll_pathArgs ch group row [x] [.value v] path (by simp [Sql.evalAll, h, Sql.eval])
  have hlength : (pathArgs [x] path).2.length = (pathArgs [Sql.value v] path).2.length := by
    rw [← @evalAll_length ch group row, hargs.2, evalAll_length]
  unfold writeMember
  rcases hx : (pathArgs [x] path).2 with _ | ⟨a, as⟩
  · rcases hy : (pathArgs [Sql.value v] path).2 with _ | ⟨b, bs⟩
    · simp [hx, hy, constant, Sql.eval, hargs.1]
    · simp [hx, hy] at hlength
  · rcases hy : (pathArgs [Sql.value v] path).2 with _ | ⟨b, bs⟩
    · simp [hx, hy] at hlength
    · have hconjunction := eval_conjunction hargs.2
      rw [hx, hy] at hconjunction
      unfold constant at hconjunction
      simp [hx, hy, constant, Sql.eval, Sql.evalAll, Sql.text, hargs.1, hconjunction]

/-- extract of a regex and a group written in the Query, and of nothing else. -/
theorem writeCall_extract {lib : Library} {a b : Expr × Written} {rest : List (Expr × Written)} :
    writeCall lib .extract (a :: b :: rest) = .panic ∨
      ∃ regex n c, a.1 = .literal (.string regex) ∧ b.1 = .literal (.number n) ∧ rest = [c] := by
  obtain ⟨a, wa⟩ := a
  obtain ⟨b, wb⟩ := b
  cases a <;> try exact .inl rfl
  rename_i l
  cases l <;> try exact .inl rfl
  cases b <;> try exact .inl rfl
  rename_i l
  cases l <;> try exact .inl rfl
  cases rest with
  | nil => exact .inl rfl
  | cons c rest =>
    cases rest with
    | nil => exact .inr ⟨_, _, c, rfl, rfl, rfl⟩
    | cons d rest => exact .inl rfl

/-- A call of more than three arguments is none of the language's. -/
theorem writeCall_tooMany {lib : Library} {fn : ScalarFunction} {a b c d : Expr × Written}
    {rest : List (Expr × Written)} : writeCall lib fn (a :: b :: c :: d :: rest) = .panic := by
  cases fn <;> try rfl
  rcases @writeCall_extract lib a b (c :: d :: rest) with h | ⟨_, _, _, _, _, h⟩
  · exact h
  · simp at h

/-- A function of one argument is that of the argument's reading. -/
theorem eval_writeCall_one {lib : Library} {fn : ScalarFunction} {x : Expr}
    (h : Reads ch group row w r) :
    (writeCall lib fn [(x, w)]).eval ch group row =
      constant ch (writeCall lib fn [(x, r.written)]) := by
  have htext := @eval_writeToString ch group row w r x.typ h
  have hnumber := @eval_writeToNumber ch group row w r x.typ h
  have hround := @eval_writeRound ch group row w.value none r.value none h.value rfl
  unfold constant at *
  cases fn
  case tostring => exact htext
  case todouble => exact hnumber
  case toreal => exact hnumber
  case round => exact hround
  all_goals
    simp [writeCall, Reading.written, jsonIs, Sql.text, Sql.eval, Sql.evalAll, h.value, h.json,
      hnumber]

/-- A bin is that of the readings of its time and size. -/
theorem eval_binned {x y : Expr} {w₂ : Written} {r₂ : Reading} (h : Reads ch group row w r)
    (h₂ : Reads ch group row w₂ r₂) :
    (writeCall.binned (x, w) (y, w₂)).eval ch group row =
      constant ch (writeCall.binned (x, r.written) (y, r₂.written)) := by
  unfold writeCall.binned
  split <;> simp [constant, Reading.written, Sql.eval, Sql.evalAll, h.value, h₂.value]

/-- A function of two arguments is that of their readings. -/
theorem eval_writeCall_two {lib : Library} {fn : ScalarFunction} {x y : Expr} {w₂ : Written}
    {r₂ : Reading} (h : Reads ch group row w r) (h₂ : Reads ch group row w₂ r₂) :
    (writeCall lib fn [(x, w), (y, w₂)]).eval ch group row =
      constant ch (writeCall lib fn [(x, r.written), (y, r₂.written)]) := by
  have hbinned := @eval_binned ch group row w r x y w₂ r₂ h h₂
  have hround := @eval_writeRound ch group row w.value (some w₂.value) r.value (some r₂.value)
    h.value (by simp [h₂.value])
  have hsubstring := @eval_writeSubstring ch group row w.value w₂.value y none r.value r₂.value none
    h.value h₂.value rfl
  cases fn
  case bin => exact hbinned
  case floor => exact hbinned
  case substring => exact hsubstring
  case round => exact hround
  case extract =>
    have hpanic (a b : Expr × Written) : writeCall lib .extract [a, b] = .panic := by
      rcases @writeCall_extract lib a b [] with h | ⟨_, _, _, _, _, h⟩
      · exact h
      · simp at h
    rw [hpanic, hpanic]
    rfl
  all_goals rfl

/-- A function of three arguments is that of their readings. -/
theorem eval_writeCall_three {lib : Library} {fn : ScalarFunction} {x y z : Expr}
    {w₂ w₃ : Written} {r₂ r₃ : Reading} (h : Reads ch group row w r)
    (h₂ : Reads ch group row w₂ r₂) (h₃ : Reads ch group row w₃ r₃) :
    (writeCall lib fn [(x, w), (y, w₂), (z, w₃)]).eval ch group row =
      constant ch (writeCall lib fn [(x, r.written), (y, r₂.written), (z, r₃.written)]) := by
  have hsubstring := @eval_writeSubstring ch group row w.value w₂.value y (some w₃.value) r.value
    r₂.value (some r₃.value) h.value h₂.value (by simp [h₃.value])
  cases fn
  case substring => exact hsubstring
  case extract =>
    rcases @writeCall_extract lib (x, w) (y, w₂) [(z, w₃)] with hpanic | ⟨regex, n, _, rfl, rfl, _⟩
    · rcases @writeCall_extract lib (x, r.written) (y, r₂.written) [(z, r₃.written)] with
        hpanic' | ⟨regex, n, _, rfl, rfl, _⟩
      · rw [hpanic, hpanic']
        rfl
      · exact eval_writeExtract h₃.value
    · exact eval_writeExtract h₃.value
  all_goals rfl

/-- A call evaluates as that of its arguments' readings. -/
theorem eval_writeCall {lib : Library} {fn : ScalarFunction} {args : List Expr}
    {ws : List Written} {rs : List Reading} (h : List.Forall₂ (Reads ch group row) ws rs) :
    (writeCall lib fn (args.zip ws)).eval ch group row =
      constant ch (writeCall lib fn (args.zip (rs.map Reading.written))) := by
  have hnil : (writeCall lib fn []).eval ch group row = constant ch (writeCall lib fn []) := by
    cases fn <;> rfl
  rcases args with _ | ⟨x, _ | ⟨y, _ | ⟨z, _ | ⟨x₄, args⟩⟩⟩⟩
  · exact hnil
  · rcases h with _ | ⟨h₁, h⟩
    · exact hnil
    · exact eval_writeCall_one h₁
  · rcases h with _ | ⟨h₁, _ | ⟨h₂, h⟩⟩
    · exact hnil
    · exact eval_writeCall_one h₁
    · exact eval_writeCall_two h₁ h₂
  · rcases h with _ | ⟨h₁, _ | ⟨h₂, _ | ⟨h₃, h⟩⟩⟩
    · exact hnil
    · exact eval_writeCall_one h₁
    · exact eval_writeCall_two h₁ h₂
    · exact eval_writeCall_three h₁ h₂ h₃
  · rcases h with _ | ⟨h₁, _ | ⟨h₂, _ | ⟨h₃, _ | ⟨h₄, h⟩⟩⟩⟩
    · exact hnil
    · exact eval_writeCall_one h₁
    · exact eval_writeCall_two h₁ h₂
    · exact eval_writeCall_three h₁ h₂ h₃
    · simp only [List.map_cons, List.zip_cons_cons]
      rw [writeCall_tooMany, writeCall_tooMany]
      rfl

end Constants

section Tests

variable {ch : ClickHouse} {group : List Sql.Row} {row : Sql.Row}

/-- A condition and its negation hold as a reading decides. -/
structure Decides (ch : ClickHouse) (group : List Sql.Row) (row : Sql.Row) (w : Written)
    (r : Reading) : Prop where
  holds : (w.condition false).holds ch group row ↔ r.verdict = some true
  negated : (w.condition true).holds ch group row ↔ r.verdict = some false
  isBool : ∀ negate, IsBool ((w.condition negate).eval ch group row)

/-- A test negated holds where the test does not. -/
theorem holds_notTrue {test : Sql} (h : IsBool (test.eval ch group row)) :
    (notTrue test).holds ch group row ↔ ¬test.holds ch group row := by
  rcases isBool_iff.1 h with hv | ⟨b, hv⟩
  · simp [notTrue, Sql.holds, Sql.eval, Sql.evalAll, Sql.bool, Fn.eval, hv, Kleene.not]
  · simp [notTrue, Sql.holds, Sql.eval, Sql.evalAll, Sql.bool, Fn.eval, hv, Kleene.not]

/-- A test is decided, as what it evaluates to says. -/
theorem decides_testOf {w : Written} {r : Reading} (test : Sql)
    (hcondition : w.condition = testOf test) (hbool : IsBool (test.eval ch group row))
    (hverdict : r.verdict = some (decide (truth (test.eval ch group row) = some true))) :
    Decides ch group row w r where
  holds := by
    rw [hcondition, hverdict]
    simp [testOf, Sql.holds]
  negated := by
    rw [hcondition, hverdict]
    simp only [testOf, if_true, holds_notTrue hbool, Option.some.injEq, decide_eq_false_iff_not]
    rfl
  isBool negate := by
    rw [hcondition]
    cases negate with
    | false => exact hbool
    | true => simp [testOf, notTrue, Sql.eval, Sql.evalAll, Fn.eval]

/-- A condition as a value is true where it holds and false elsewhere. -/
theorem reads_ofTest {test : Bool → Sql} {t : Option Bool}
    (h : Decides ch group row (.ofTest test) (.ofVerdict t)) :
    Reads ch group row (.ofTest test) (.ofVerdict t) := by
  have hholds : truth ((test false).eval ch group row) = some true ↔ t = some true := h.holds
  have hbool : IsBool ((test false).eval ch group row) := h.isBool false
  have hvalue : (Written.ofTest test).value.eval ch group row =
      some (.bool (decide (t = some true))) := by
    simp only [← hholds]
    rcases isBool_iff.1 hbool with hv | ⟨b, hv⟩
    · simp [Written.ofTest, Sql.eval, Sql.evalAll, Sql.bool, Fn.eval, hv]
    · simp [Written.ofTest, Sql.eval, Sql.evalAll, Sql.bool, Fn.eval, hv]
  have hreads := reads_ofValue (t := .bool) hvalue
  exact ⟨hvalue, hreads.part, hreads.json⟩

/-- A value of type bool, as a condition. -/
theorem decides_ofValue {v : Sql} {value : Option Value} (h : v.eval ch group row = value)
    (hbool : IsBool value) : Decides ch group row (.ofValue .bool v) (.ofValue value) := by
  refine decides_testOf v ?_ (h ▸ hbool) ?_
  · funext negate
    simp [Written.ofValue, valueCondition]
  · simp [Reading.ofValue, h]

/-- A conjunction is decided as its sides are. -/
theorem decides_and {x y : Written} {rx ry : Reading} (hx : Decides ch group row x rx)
    (hy : Decides ch group row y ry) :
    Decides ch group row (.ofTest (andCondition x.condition y.condition))
      (.ofVerdict (Kleene.and rx.verdict ry.verdict)) where
  holds := by simp [Written.ofTest, andCondition, Reading.ofVerdict, hx.holds, hy.holds]
  negated := by simp [Written.ofTest, andCondition, Reading.ofVerdict, hx.negated, hy.negated]
  isBool negate := by
    cases negate <;> simp [Written.ofTest, andCondition, Sql.eval, Sql.evalAll, Fn.eval]

/-- A disjunction is decided as its sides are. -/
theorem decides_or {x y : Written} {rx ry : Reading} (hx : Decides ch group row x rx)
    (hy : Decides ch group row y ry) :
    Decides ch group row (.ofTest (orCondition x.condition y.condition))
      (.ofVerdict (Kleene.or rx.verdict ry.verdict)) where
  holds := by simp [Written.ofTest, orCondition, Reading.ofVerdict, hx.holds, hy.holds]
  negated := by simp [Written.ofTest, orCondition, Reading.ofVerdict, hx.negated, hy.negated]
  isBool negate := by
    cases negate <;> simp [Written.ofTest, orCondition, Sql.eval, Sql.evalAll, Fn.eval]

/-- A negation is decided by what its operand's condition negates. -/
theorem decides_not {x : Written} {rx : Reading} (hx : Decides ch group row x rx) :
    Decides ch group row (.ofTest fun negate => x.condition !negate)
      (.ofVerdict (Kleene.not rx.verdict)) where
  holds := by simp [Written.ofTest, Reading.ofVerdict, hx.negated]
  negated := by simp [Written.ofTest, Reading.ofVerdict, hx.holds]
  isBool negate := hx.isBool !negate

/-- A position found in any case is that of the text that is read. -/
theorem eval_caseInsensitivePosition {x : Sql} {v : Option Value} {pattern : String}
    (h : x.eval ch group row = v) :
    (caseInsensitivePosition x pattern).eval ch group row =
      constant ch (caseInsensitivePosition (.value v) pattern) := by
  unfold caseInsensitivePosition
  split <;> simp [constant, Sql.eval, Sql.evalAll, Sql.text, h]

/-- A text match is that of the text that is read. -/
theorem eval_writeTextMatch {op : MatchOp} {x : Sql} {v : Option Value} {pattern : String}
    {caseSensitive : Bool} (h : x.eval ch group row = v) :
    (writeTextMatch op x pattern caseSensitive).eval ch group row =
      constant ch (writeTextMatch op (.value v) pattern caseSensitive) := by
  have hposition := @eval_caseInsensitivePosition ch group row x v pattern h
  unfold constant at *
  cases op <;> cases caseSensitive <;>
    simp [writeTextMatch, Sql.eval, Sql.evalAll, Sql.text, Sql.number, h, hposition]

/-- An order of two values is a bool. -/
theorem isBool_order {r : Value → Value → Bool} {x y : Option Value} :
    IsBool (Fn.eval.order r x y) := by
  cases x <;> cases y <;> simp [Fn.eval.order]

/-- An equality is a bool. -/
theorem isBool_equals {x y : Sql} : IsBool ((Sql.fn .equals [x, y]).eval ch group row) := by
  cases hx : x.eval ch group row <;> cases hy : y.eval ch group row <;>
    simp [Sql.eval, Sql.evalAll, Fn.eval, hx, hy]

/-- A text match is a bool. -/
theorem isBool_textMatch (hch : ch.TestsAreBools) {op : MatchOp} {x : Sql} {pattern : String}
    {caseSensitive : Bool} :
    IsBool ((writeTextMatch op x pattern caseSensitive).eval ch group row) := by
  cases op
  case contains => cases caseSensitive <;> exact isBool_order
  case startsWith => exact hch.ordinary (.inr rfl) _
  case regex => exact hch.ordinary (.inl rfl) _
  case equals => exact isBool_equals

/-- A test of a missing text is unknown. -/
theorem textMatch_missing {op : MatchOp} {pattern : String} {caseSensitive : Bool} :
    constant ch (writeTextMatch op (.value none) pattern caseSensitive) = none := by
  have hposition : constant ch (caseInsensitivePosition (.value none) pattern) = none := by
    unfold caseInsensitivePosition
    split <;> simp [constant, Sql.eval, Sql.evalAll, Fn.eval, ordinary, Fn.readsNull]
  unfold constant at *
  cases op <;> cases caseSensitive <;>
    simp [writeTextMatch, Sql.eval, Sql.evalAll, Fn.eval, Fn.eval.order, ordinary, Fn.readsNull,
      hposition]

/-- A test of text is false of a missing text. -/
theorem decides_textMatch (hch : ch.TestsAreBools) {op : MatchOp} {x : Written} {rx : Reading}
    {pattern : String} {caseSensitive : Bool} (hx : Reads ch group row x rx) :
    Decides ch group row (.ofTest (testOf (writeTextMatch op x.value pattern caseSensitive)))
      (.ofVerdict (some (textVerdict ch op rx.value pattern caseSensitive))) := by
  refine decides_testOf _ rfl (isBool_textMatch hch) ?_
  rw [eval_writeTextMatch hx.value]
  cases hv : rx.value with
  | none => simp [Reading.ofVerdict, textVerdict, textMatch_missing]
  | some v => rfl

/-- What a test of emptiness evaluates to. -/
theorem eval_emptyText {x : Sql} {v : Option Value} (h : x.eval ch group row = v) :
    (emptyText x).eval ch group row = some (.bool (missingText v)) := by
  subst h
  cases hv : x.eval ch group row with
  | none => simp [emptyText, missingText, Sql.eval, Sql.evalAll, Fn.eval, hv, Kleene.or]
  | some v =>
    simp [emptyText, missingText, Sql.eval, Sql.evalAll, Sql.text, Fn.eval, hv]
    cases h : decide (v = .string "") <;> simp_all [Kleene.or]

/-- A test of NULL is known of every value. -/
theorem eval_isNull {x : Sql} {v : Option Value} (h : x.eval ch group row = v) :
    (Sql.fn .isNull [x]).eval ch group row = some (.bool v.isNone) := by
  simp [Sql.eval, Sql.evalAll, Fn.eval, h]

/-- A conjunction of known bools is known. -/
theorem eval_and_bools {x y : Sql} {b c : Bool} (hx : x.eval ch group row = some (.bool b))
    (hy : y.eval ch group row = some (.bool c)) :
    (Sql.fn .and [x, y]).eval ch group row = some (.bool (b && c)) := by
  cases b <;> cases c <;> simp [Sql.eval, Sql.evalAll, Fn.eval, hx, hy, Kleene.and]

/-- A test of emptiness is known of every reading. -/
theorem eval_writeIsEmpty {t : ValueType} {x : Written} {rx : Reading}
    (hx : Reads ch group row x rx) :
    (writeIsEmpty t x).eval ch group row = some (.bool (isEmptyVerdict t rx)) := by
  cases t
  case string => exact eval_emptyText hx.value
  case dynamic =>
    simp only [writeIsEmpty, dynamicParts, List.tail_cons, List.map_cons, List.map_nil,
      Sql.conjunction]
    rw [eval_and_bools (eval_emptyText (hx.part .string)) (eval_and_bools
      (eval_isNull (hx.part .number)) (eval_and_bools (eval_isNull (hx.part .bool))
        (eval_isNull (hx.part .json))))]
    simp [isEmptyVerdict, dynamicParts]
  all_goals exact eval_isNull hx.value

/-- A test of emptiness is decided either way. -/
theorem decides_isEmpty {t : ValueType} {x : Written} {rx : Reading}
    (hx : Reads ch group row x rx) :
    Decides ch group row (.ofTest (isEmptyCondition t x))
      (.ofVerdict (some (isEmptyVerdict t rx))) where
  holds := by
    simp [Written.ofTest, isEmptyCondition, Reading.ofVerdict, Sql.holds, eval_writeIsEmpty hx]
  negated := by
    simp [Written.ofTest, isEmptyCondition, Reading.ofVerdict, Sql.holds, Sql.eval, Sql.evalAll,
      Fn.eval, eval_writeIsEmpty hx]
  isBool negate := by
    cases negate <;>
      simp [Written.ofTest, isEmptyCondition, Sql.eval, Sql.evalAll, Fn.eval, eval_writeIsEmpty hx]

/-- What an equality of values of one type says when two missing values are left undecided. -/
theorem equality_eq_true {t : ValueType} {x y : Option Value} :
    compareVerdict undecided .eq t t x y = some true ↔ x = y ∧ x ≠ none := by
  cases x <;> cases y <;>
    simp [compareVerdict, CompareOp.isEquality, CompareOp.ofValues, undecided]

/-- Two values are not equal when they differ, a missing one included. -/
theorem equality_eq_false {t : ValueType} {x y : Option Value} :
    compareVerdict undecided .eq t t x y = some false ↔ x ≠ y := by
  cases x <;> cases y <;>
    simp [compareVerdict, CompareOp.isEquality, CompareOp.ofValues, undecided]

/-- Two values are unequal when they differ, a missing one included. -/
theorem inequality_eq_true {t : ValueType} {x y : Option Value} :
    compareVerdict undecided .ne t t x y = some true ↔ x ≠ y := by
  cases x <;> cases y <;>
    simp [compareVerdict, CompareOp.isEquality, CompareOp.ofValues, undecided]

/-- Two values are not unequal when they are one, and it is not missing. -/
theorem inequality_eq_false {t : ValueType} {x y : Option Value} :
    compareVerdict undecided .ne t t x y = some false ↔ x = y ∧ x ≠ none := by
  cases x <;> cases y <;>
    simp [compareVerdict, CompareOp.isEquality, CompareOp.ofValues, undecided]

/-- An order of two values is decided: false where one is missing. -/
theorem decides_order {f : Fields} {x y : Expr} {op : CompareOp} {wx wy : Written}
    {rx ry : Reading} (hx : Reads ch group row wx rx) (hy : Reads ch group row wy ry)
    (hop : op.isEquality = false) :
    Decides ch group row (.ofTest (writeCompare f x op y wx wy))
      (.ofVerdict (compareVerdict undecided op x.typ y.typ rx.value ry.value)) := by
  have hcondition : writeCompare f x op y wx wy = testOf (.fn op.fn [wx.value, wy.value]) := by
    funext negate
    simp [writeCompare, hop]
  refine decides_testOf _ hcondition ?_ ?_
  · cases op <;> first | exact isBool_order | simp [CompareOp.isEquality] at hop
  · cases op <;> simp [CompareOp.isEquality] at hop <;> cases hvx : rx.value <;>
      cases hvy : ry.value <;>
      simp [Reading.ofVerdict, compareVerdict, CompareOp.isEquality, CompareOp.ofValues,
        CompareOp.fn, Sql.eval, Sql.evalAll, Fn.eval, Fn.eval.order, hx.value, hy.value, hvx, hvy]

/-- An equality is decided by a test of it and one of its negation. -/
theorem decides_equality {op : CompareOp} {t : ValueType} {x y : Option Value} {w : Written}
    {equal distinct : Sql} (hop : op.isEquality = true)
    (hcondition : ∀ negate, w.condition negate = if (op == .eq) != negate then equal else distinct)
    (hequal : equal.holds ch group row ↔ x = y ∧ x ≠ none)
    (hdistinct : distinct.holds ch group row ↔ x ≠ y)
    (hequalBool : IsBool (equal.eval ch group row))
    (hdistinctBool : IsBool (distinct.eval ch group row)) :
    Decides ch group row w (.ofVerdict (compareVerdict undecided op t t x y)) := by
  cases op <;> simp [CompareOp.isEquality] at hop
  case eq =>
    refine ⟨?_, ?_, ?_⟩
    · rw [hcondition]
      exact hequal.trans equality_eq_true.symm
    · rw [hcondition]
      exact hdistinct.trans equality_eq_false.symm
    · intro negate
      rw [hcondition]
      cases negate
      · exact hequalBool
      · exact hdistinctBool
  case ne =>
    refine ⟨?_, ?_, ?_⟩
    · rw [hcondition]
      exact hdistinct.trans inequality_eq_true.symm
    · rw [hcondition]
      exact hequal.trans inequality_eq_false.symm
    · intro negate
      rw [hcondition]
      cases negate
      · exact hdistinctBool
      · exact hequalBool

/-- An equality holds of one value that is not missing. -/
theorem holds_equals {x y : Sql} {v u : Option Value} (hx : x.eval ch group row = v)
    (hy : y.eval ch group row = u) :
    (Sql.fn .equals [x, y]).holds ch group row ↔ v = u ∧ v ≠ none := by
  cases v <;> cases u <;> simp [Sql.holds, Sql.eval, Sql.evalAll, Fn.eval, hx, hy]

/-- A distinction holds of two values that differ, a missing one included. -/
theorem holds_isDistinctFrom {x y : Sql} {v u : Option Value} (hx : x.eval ch group row = v)
    (hy : y.eval ch group row = u) :
    (Sql.fn .isDistinctFrom [x, y]).holds ch group row ↔ v ≠ u := by
  simp [Sql.holds, Sql.eval, Sql.evalAll, Fn.eval, hx, hy]

/-- An inequality of values that are there holds when they differ. -/
theorem holds_notEquals {x y : Sql} {v u : Value} (hx : x.eval ch group row = some v)
    (hy : y.eval ch group row = some u) :
    (Sql.fn .notEquals [x, y]).holds ch group row ↔ v ≠ u := by
  simp [Sql.holds, Sql.eval, Sql.evalAll, Fn.eval, hx, hy]

/-- A comparison is decided but for an equality of two missing values. -/
theorem decides_compare {f : Fields} {x y : Expr} {op : CompareOp} {wx wy : Written}
    {rx ry : Reading} (hx : Reads ch group row wx rx) (hy : Reads ch group row wy ry)
    (hcolumn : ∀ column value, stringColumnCompare f x y = some (column, value) →
      ∃ c v : Value, column.eval ch group row = some c ∧ value.eval ch group row = some v ∧
        (c = v ↔ rx.value = ry.value) ∧ ¬(rx.value = none ∧ ry.value = none)) :
    Decides ch group row (.ofTest (writeCompare f x op y wx wy))
      (.ofVerdict (compareVerdict undecided op x.typ y.typ rx.value ry.value)) := by
  cases hop : op.isEquality with
  | false => exact decides_order hx hy hop
  | true =>
    by_cases ht : x.typ = y.typ
    · rw [ht]
      rcases hc : stringColumnCompare f x y with _ | ⟨column, value⟩
      · refine decides_equality hop (fun negate => ?_) (holds_equals hx.value hy.value)
          (holds_isDistinctFrom hx.value hy.value) isBool_equals ?_
        · simp [Written.ofTest, writeCompare, hop, ht, hc]
        · simp [Sql.eval, Sql.evalAll, Fn.eval]
      · obtain ⟨c, v, hcolumn, hvalue, hcv, hnone⟩ := hcolumn column value hc
        have hequal : (Sql.fn .equals [column, value]).holds ch group row ↔
            rx.value = ry.value ∧ rx.value ≠ none := by
          rw [holds_equals hcolumn hvalue, Option.some.injEq, hcv]
          constructor
          · intro h
            exact ⟨h.1, fun hx => hnone ⟨hx, h.1 ▸ hx⟩⟩
          · intro h
            exact ⟨h.1, Option.some_ne_none c⟩
        have hdistinct : (Sql.fn .notEquals [column, value]).holds ch group row ↔
            rx.value ≠ ry.value := by
          rw [holds_notEquals hcolumn hvalue, ne_eq, hcv]
        refine decides_equality hop (fun negate => ?_) hequal hdistinct isBool_equals ?_
        · simp [Written.ofTest, writeCompare, hop, ht, hc]
        · simp [Sql.eval, Sql.evalAll, Fn.eval, hcolumn, hvalue]
    · have hcondition (negate : Bool) :
          (Written.ofTest (writeCompare f x op y wx wy)).condition negate =
            .bool ((op == .ne) != negate) := by
        simp [Written.ofTest, writeCompare, hop, ht]
      have hverdict :
          compareVerdict undecided op x.typ y.typ rx.value ry.value = some (op == .ne) := by
        simp [compareVerdict, hop, ht]
      refine ⟨?_, ?_, fun negate => ?_⟩
      · simp [hcondition, hverdict, Reading.ofVerdict]
      · simp [hcondition, hverdict, Reading.ofVerdict]
      · simp [hcondition, Sql.bool, Sql.eval]

end Tests

section Rows

variable (ch : ClickHouse) (group : List Sql.Row) (row : Sql.Row) (f : Fields)

/-- The values of a row's Fields and columns. -/
def Fields.values : FieldValues where
  column name := (f.column name).eval ch group row
  builtIn name := (f.builtIn name).eval ch group row
  attributeOf t name := (f.attributeOf t name).eval ch group row

/-- A string Attribute's column holds its value, or the empty string for a Log whose Attribute isn't
a string. -/
def ColumnsAgree : Prop :=
  ∀ name column, f.stringColumn name = some column →
    column.eval ch group row = match (f.attributeOf .string name).eval ch group row with
      | some (.string s) => some (.string s)
      | _ => some (.string "")

/-- A row's bool Attributes, and the columns an expression reads as bools, hold bools or nothing. -/
structure TypedFor (p : Expr) : Prop where
  attributes : ∀ name, IsBool ((f.attributeOf .bool name).eval ch group row)
  columns : ∀ name ∈ p.boolColumns, IsBool ((f.column name).eval ch group row)

variable {ch group row f} {lib : Library} {both : BothMissing}

/-- A column is compared only for a string Attribute and a string that isn't empty. -/
theorem stringColumnCompare_eq_some {x y : Expr} {column value : Sql}
    (h : stringColumnCompare f x y = some (column, value)) :
    ∃ name s, s ≠ "" ∧ f.stringColumn name = some column ∧ value = .text s ∧
      ((x = .fieldRef name false .string ∧ y = .literal (.string s)) ∨
        (y = .fieldRef name false .string ∧ x = .literal (.string s))) := by
  unfold stringColumnCompare at h
  simp only at h
  split at h
  next name s hmatch =>
    split at h
    · simp at h
    next hs =>
      simp only [Option.map_eq_some_iff, Prod.mk.injEq] at h
      obtain ⟨c, hc, rfl, rfl⟩ := h
      refine ⟨name, s, hs, hc, rfl, ?_⟩
      cases x <;> simp_all
  · simp at h

/-- The column a string Attribute is compared by equals the string just when the Attribute does. -/
theorem stringColumn_agrees (hcolumns : ColumnsAgree ch group row f) {x y : Expr} {column value : Sql}
    (h : stringColumnCompare f x y = some (column, value)) :
    ∃ c v : Value, column.eval ch group row = some c ∧ value.eval ch group row = some v ∧
      (c = v ↔ (readExpr ch lib both (f.values ch group row) x).value =
        (readExpr ch lib both (f.values ch group row) y).value) ∧
      ¬((readExpr ch lib both (f.values ch group row) x).value = none ∧
        (readExpr ch lib both (f.values ch group row) y).value = none) := by
  obtain ⟨name, s, hs, hcolumn, rfl, hsides⟩ := stringColumnCompare_eq_some h
  have hattribute : (readExpr ch lib both (f.values ch group row)
      (.fieldRef name false .string)).value = (f.attributeOf .string name).eval ch group row := by
    simp [readExpr, Reading.ofValue, ValueType.attributeType, Fields.values]
  have hliteral : (readExpr ch lib both (f.values ch group row) (.literal (.string s))).value =
      some (.string s) := by
    simp [readExpr, Reading.ofValue, constant, writeLiteral, Sql.text, Sql.eval]
  have hvalue : (Sql.text s).eval ch group row = some (.string s) := by
    simp [Sql.text, Sql.eval]
  have heval := hcolumns name column hcolumn
  -- The column's value, and that it is the string just when the Attribute is.
  have hc : ∃ c, column.eval ch group row = some c ∧
      (c = .string s ↔ (f.attributeOf .string name).eval ch group row = some (.string s)) := by
    rw [heval]
    split
    next t ht => exact ⟨_, rfl, by simp [ht]⟩
    next hother =>
      refine ⟨_, rfl, ?_⟩
      simp only [Value.string.injEq, Ne.symm hs, false_iff]
      exact hother s
  obtain ⟨c, hc, hiff⟩ := hc
  refine ⟨c, .string s, hc, hvalue, ?_⟩
  rcases hsides with ⟨rfl, rfl⟩ | ⟨rfl, rfl⟩
  · rw [hattribute, hliteral]
    exact ⟨hiff, by simp⟩
  · rw [hattribute, hliteral]
    exact ⟨hiff.trans eq_comm, by simp⟩

/-- An operand's columns are among those of what it is in. -/
theorem TypedFor.mono {p x : Expr} (h : TypedFor ch group row f p)
    (hsub : x.boolColumns ⊆ p.boolColumns) : TypedFor ch group row f x :=
  ⟨h.attributes, fun name hname => h.columns name (hsub hname)⟩

/-- The bool of a dynamic value is a bool. -/
theorem isBool_dynamicBool {v : Sql} : IsBool ((dynamicPart v .bool).eval ch group row) := by
  rw [eval_dynamicPart]
  rcases v.eval ch group row with _ | v
  · exact isBool_none
  · cases v <;> try exact isBool_none
    exact isBool_ofTruth

/-- The bool of a JSON value is a bool. -/
theorem isBool_jsonBool {v raw : Sql} : IsBool ((jsonParts v raw .bool).eval ch group row) := by
  simp only [jsonParts, Sql.eval, Sql.evalAll, Fn.eval]
  split
  · exact isBool_ofTruth
  · exact isBool_none

/-- The bool part of a dynamic value is a bool or missing. -/
theorem isBool_boolPart (hattributes : ∀ name, IsBool ((f.attributeOf .bool name).eval ch group row))
    (x : Expr) : IsBool (((write lib f x).partsOf .bool).eval ch group row) := by
  cases x
  case fieldRef name builtIn t => exact hattributes name
  case parsedJSON x => exact @isBool_jsonBool _ _ _ (write lib f x).value .panic
  case member x path => exact @isBool_jsonBool _ _ _ _ .panic
  case aggregate fn x percent t => cases x <;> exact isBool_dynamicBool
  all_goals exact isBool_dynamicBool

/-- A field of a row reads as the row's columns have it. -/
theorem fieldRef_reads {name : String} {builtIn : Bool} {t : ValueType}
    (hp : (Expr.fieldRef name builtIn t).ofRow = true)
    (hrow : TypedFor ch group row f (.fieldRef name builtIn t)) :
    Reads ch group row (write lib f (.fieldRef name builtIn t))
        (readExpr ch lib both (f.values ch group row) (.fieldRef name builtIn t)) ∧
      ((Expr.fieldRef name builtIn t).typ = .bool →
        Decides ch group row (write lib f (.fieldRef name builtIn t))
          (readExpr ch lib both (f.values ch group row) (.fieldRef name builtIn t))) := by
  have hvalue : (write lib f (.fieldRef name builtIn t)).value.eval ch group row =
      (readExpr ch lib both (f.values ch group row) (.fieldRef name builtIn t)).value := by
    cases builtIn
    · cases t <;> rfl
    · rfl
  refine ⟨⟨hvalue, fun _ => rfl, rfl⟩, fun ht => ?_⟩
  simp only [Expr.typ] at ht
  subst ht
  cases builtIn
  · refine decides_testOf (f.attributeOf .bool name) ?_ (hrow.attributes name) rfl
    funext negate
    simp [write, writeFieldRef, valueCondition, ValueType.attributeType]
  · simp [Expr.ofRow] at hp

mutual

/-- An expression of a row is written as what it is for the row, and a condition as what decides
it. -/
theorem write_reads (hch : ch.TestsAreBools) (hcolumns : ColumnsAgree ch group row f) :
    ∀ p : Expr, p.ofRow = true → TypedFor ch group row f p →
      Reads ch group row (write lib f p) (readExpr ch lib undecided (f.values ch group row) p) ∧
      (p.typ = .bool → Decides ch group row (write lib f p)
        (readExpr ch lib undecided (f.values ch group row) p))
  | .fieldRef name builtIn t, hp, hrow => fieldRef_reads hp hrow
  | .attributeText name, _, _ => by
    refine ⟨reads_ofValue ?_, nofun⟩
    simp [writeText, constant, Fields.values, Sql.eval, Sql.evalAll]
  | .jsonValueText x, hp, hrow => by
    have hx := write_reads hch hcolumns x hp ⟨hrow.attributes, hrow.columns⟩
    exact ⟨reads_ofValue (eval_writeText hx.1), nofun⟩
  | .columnRef name t _, _, hrow => by
    refine ⟨reads_ofValue rfl, fun ht => ?_⟩
    have hbool := hrow.columns name (by simp_all [Expr.boolColumns, Expr.typ])
    simp only [Expr.typ] at ht
    subst ht
    exact decides_ofValue rfl hbool
  | .partOf x t, hp, hrow => by
    have hx := write_reads hch hcolumns x hp ⟨hrow.attributes, hrow.columns⟩
    refine ⟨reads_ofValue (eval_typedPart hx.1), fun ht => ?_⟩
    simp only [Expr.typ] at ht
    subst ht
    refine decides_ofValue (eval_typedPart hx.1) ?_
    rw [← eval_typedPart hx.1]
    exact isBool_boolPart hrow.attributes x
  | .literal l, _, _ => by
    refine ⟨reads_ofValue (by cases l <;> rfl), fun ht => ?_⟩
    cases l <;> simp [Expr.typ, Literal.valueType] at ht
    exact decides_ofValue rfl isBool_bool
  | .compare x op y, hp, hrow => by
    simp only [Expr.ofRow, Bool.and_eq_true] at hp
    have hx := write_reads hch hcolumns x hp.1 (hrow.mono (by simp [Expr.boolColumns]))
    have hy := write_reads hch hcolumns y hp.2 (hrow.mono (by simp [Expr.boolColumns]))
    have hdecides := @decides_compare ch group row f x y op _ _ _ _ hx.1 hy.1
      fun _ _ h => stringColumn_agrees hcolumns h
    exact ⟨reads_ofTest hdecides, fun _ => hdecides⟩
  | .textMatch op x pattern caseSensitive, hp, hrow => by
    have hx := write_reads hch hcolumns x hp ⟨hrow.attributes, hrow.columns⟩
    have hdecides := @decides_textMatch ch group row hch op _ _ pattern caseSensitive hx.1
    exact ⟨reads_ofTest hdecides, fun _ => hdecides⟩
  | .isEmpty x, hp, hrow => by
    have hx := write_reads hch hcolumns x hp ⟨hrow.attributes, hrow.columns⟩
    have hdecides := @decides_isEmpty ch group row x.typ _ _ hx.1
    exact ⟨reads_ofTest hdecides, fun _ => hdecides⟩
  | .always, hp, _ => by simp [Expr.ofRow] at hp
  | .and x y, hp, hrow => by
    simp only [Expr.ofRow, Bool.and_eq_true, beq_iff_eq] at hp
    have hx := write_reads hch hcolumns x hp.1.1.1 (hrow.mono (by simp [Expr.boolColumns]))
    have hy := write_reads hch hcolumns y hp.1.1.2 (hrow.mono (by simp [Expr.boolColumns]))
    have hdecides := decides_and (hx.2 hp.1.2) (hy.2 hp.2)
    exact ⟨reads_ofTest hdecides, fun _ => hdecides⟩
  | .or x y, hp, hrow => by
    simp only [Expr.ofRow, Bool.and_eq_true, beq_iff_eq] at hp
    have hx := write_reads hch hcolumns x hp.1.1.1 (hrow.mono (by simp [Expr.boolColumns]))
    have hy := write_reads hch hcolumns y hp.1.1.2 (hrow.mono (by simp [Expr.boolColumns]))
    have hdecides := decides_or (hx.2 hp.1.2) (hy.2 hp.2)
    exact ⟨reads_ofTest hdecides, fun _ => hdecides⟩
  | .not x, hp, hrow => by
    simp only [Expr.ofRow, Bool.and_eq_true, beq_iff_eq] at hp
    have hx := write_reads hch hcolumns x hp.1 ⟨hrow.attributes, hrow.columns⟩
    have hdecides := decides_not (hx.2 hp.2)
    exact ⟨reads_ofTest hdecides, fun _ => hdecides⟩
  | .arith op x y t, hp, hrow => by
    simp only [Expr.ofRow, Bool.and_eq_true, bne_iff_ne] at hp
    have hx := write_reads hch hcolumns x hp.1.1 (hrow.mono (by simp [Expr.boolColumns]))
    have hy := write_reads hch hcolumns y hp.1.2 (hrow.mono (by simp [Expr.boolColumns]))
    refine ⟨reads_ofValue ?_, fun ht => absurd ht hp.2⟩
    simp [constant, Reading.written, Sql.eval, Sql.evalAll, hx.1.value, hy.1.value]
  | .negative x, hp, hrow => by
    simp only [Expr.ofRow, Bool.and_eq_true, bne_iff_ne] at hp
    have hx := write_reads hch hcolumns x hp.1 ⟨hrow.attributes, hrow.columns⟩
    refine ⟨reads_ofValue ?_, fun ht => absurd ht hp.2⟩
    simp [constant, Reading.written, Sql.eval, Sql.evalAll, hx.1.value]
  | .call fn args t, hp, hrow => by
    simp only [Expr.ofRow, Bool.and_eq_true, bne_iff_ne] at hp
    have hargs := writeAll_reads hch hcolumns args hp.1 hrow.attributes hrow.columns
    exact ⟨reads_ofValue (eval_writeCall hargs), fun ht => absurd ht hp.2⟩
  | .parsedJSON x, hp, hrow => by
    have hx := write_reads hch hcolumns x hp ⟨hrow.attributes, hrow.columns⟩
    exact ⟨reads_ofParts (eval_parsedParts hx.1.value) hx.1.value, nofun⟩
  | .member x path, hp, hrow => by
    have hx := write_reads hch hcolumns x hp ⟨hrow.attributes, hrow.columns⟩
    have hmember := eval_writeMember path hx.1.json
    exact ⟨reads_ofParts (eval_jsonParts hmember hmember) hmember, nofun⟩
  | .aggregate _ _ _ _, hp, _ => by simp [Expr.ofRow] at hp

/-- The arguments of a call read as their expressions do. -/
theorem writeAll_reads (hch : ch.TestsAreBools) (hcolumns : ColumnsAgree ch group row f) :
    ∀ args : List Expr, allOfRow args = true →
      (∀ name, IsBool ((f.attributeOf .bool name).eval ch group row)) →
      (∀ name ∈ boolColumnsOf args, IsBool ((f.column name).eval ch group row)) →
      List.Forall₂ (Reads ch group row) (writeAll lib f args)
        (readAll ch lib undecided (f.values ch group row) args)
  | [], _, _, _ => .nil
  | x :: rest, hargs, hattributes, hrow => by
    simp only [allOfRow, Bool.and_eq_true] at hargs
    simp only [boolColumnsOf, List.mem_append] at hrow
    have hx := write_reads hch hcolumns x hargs.1 ⟨hattributes, fun name h => hrow name (.inl h)⟩
    exact .cons hx.1 (writeAll_reads hch hcolumns rest hargs.2 hattributes
      fun name h => hrow name (.inr h))

end

/-- As documented, a condition holds or does not. -/
theorem verdict_documented_isSome {row : FieldValues} :
    ∀ p : Expr, (verdict ch lib documented row p).isSome
  | .fieldRef _ _ _ => rfl
  | .attributeText _ => rfl
  | .jsonValueText _ => rfl
  | .columnRef _ _ _ => rfl
  | .partOf _ _ => rfl
  | .literal _ => rfl
  | .compare x op y => by
    simp only [verdict, readExpr, Reading.ofVerdict, compareVerdict, documented]
    repeat' split
    all_goals rfl
  | .textMatch _ _ _ _ => rfl
  | .isEmpty _ => rfl
  | .always => rfl
  | .and x y => Kleene.and_isSome (verdict_documented_isSome x) (verdict_documented_isSome y)
  | .or x y => Kleene.or_isSome (verdict_documented_isSome x) (verdict_documented_isSome y)
  | .not x => Kleene.not_isSome (verdict_documented_isSome x)
  | .arith _ _ _ _ => rfl
  | .negative _ => rfl
  | .call _ _ _ => rfl
  | .parsedJSON _ => rfl
  | .member _ _ => rfl
  | .aggregate _ _ _ _ => rfl

end Rows

section Wheres

/-- A condition as it is written holds of a row just when it does as documented, and its negation
just when it does not. -/
def TwoValued (ch : ClickHouse) (lib : Library) (group : List Sql.Row) (row : Sql.Row) (f : Fields)
    (p : Expr) : Prop :=
  ((writeCondition lib f p false).holds ch group row ↔
      conditionHolds ch lib (f.values ch group row) p) ∧
    ((writeCondition lib f p true).holds ch group row ↔
      ¬conditionHolds ch lib (f.values ch group row) p)

/-- The condition of a compiled where is two-valued of a row just when its verdict is the documented
one although nothing is said of an equality of two missing values. -/
theorem where_twoValued_iff {env : Env} {tree : Syntax.Query} {q : Query}
    (hq : compileQuery env tree = .ok q) {p : Expr} (hp : .whereStage p ∈ q.head ++ q.tail)
    {ch : ClickHouse} {group : List Sql.Row} {row : Sql.Row} {f : Fields}
    (hch : ch.TestsAreBools) (hcolumns : ColumnsAgree ch group row f)
    (hrow : TypedFor ch group row f p) :
    TwoValued ch env.lib group row f p ↔
      verdict ch env.lib undecided (f.values ch group row) p =
        verdict ch env.lib documented (f.values ch group row) p := by
  obtain ⟨hofRow, htyp⟩ := compileQuery_wheres hq p hp
  have hdecides := (@write_reads ch group row f env.lib hch hcolumns p hofRow hrow).2 htyp
  obtain ⟨b, hb⟩ := Option.isSome_iff_exists.1
    (@verdict_documented_isSome ch env.lib (f.values ch group row) p)
  have hholds : (writeCondition env.lib f p false).holds ch group row ↔
      verdict ch env.lib undecided (f.values ch group row) p = some true := hdecides.holds
  have hnegated : (writeCondition env.lib f p true).holds ch group row ↔
      verdict ch env.lib undecided (f.values ch group row) p = some false := hdecides.negated
  unfold TwoValued conditionHolds
  rw [hholds, hnegated, hb]
  cases verdict ch env.lib undecided (f.values ch group row) p with
  | none => cases b <;> simp
  | some c => cases b <;> cases c <;> simp

private def unequalEnv : Env := ⟨Library.readsNothing, "", ⟨0, 9000, 9000⟩, 9000, fun _ => [], false⟩

/-- `where environment != trace_id`. -/
private def unequalTree : Syntax.Query :=
  ⟨none, [.whereStage .null .null (.binary (.ident ⟨"environment", .null, false⟩) .null .ne
    (.ident ⟨"trace_id", .null, false⟩))]⟩

private def unequalExpr : Expr :=
  .compare (.fieldRef "environment" true .string) .ne (.fieldRef "trace_id" true .string)

private def unequalQuery : Query where
  head := [.whereStage unequalExpr]
  tail := []
  fromTime := 0
  toTime := 9000
  parameters := []
  table := false
  take := none
  reads := []
  output := []
  shape := ⟨fun _ => none, false⟩

private def noFunctions : ClickHouse := ⟨fun _ _ => none, fun _ _ => none⟩

/-- A Log with an environment, or with none, and without anything else. -/
private def logOf (environment : Option Value) : Sql.Row := fun name =>
  if name == "environment" then environment
  else if name == "file" then some (.string "") else none

/-- A database without functions has no test that is not a bool. -/
private theorem noFunctions_testsAreBools : noFunctions.TestsAreBools :=
  fun _ => ⟨isBool_none, isBool_none⟩

/-- The sample Logs have the columns of the table. -/
private theorem logOf_columnsAgree (environment : Option Value) :
    ColumnsAgree noFunctions [] (logOf environment) (clickHouseColumns none).toFields := by
  intro name column h
  simp only [clickHouseColumns] at h
  split at h
  · cases h
    rfl
  · cases h

/-- The sample Logs have the types that the expression reads. -/
private theorem logOf_typedFor (environment : Option Value) :
    TypedFor noFunctions [] (logOf environment) (clickHouseColumns none).toFields unequalExpr where
  attributes _ := rfl
  columns := nofun

/-- Of a Log with an environment and no trace id, the inequality is two-valued. -/
theorem where_twoValued_iff_noTrace :
    TwoValued noFunctions Library.readsNothing [] (logOf (some (.string "production")))
      (clickHouseColumns none).toFields unequalExpr :=
  (@where_twoValued_iff unequalEnv unequalTree unequalQuery rfl unequalExpr (.head _) noFunctions []
    (logOf (some (.string "production"))) (clickHouseColumns none).toFields
    noFunctions_testsAreBools (logOf_columnsAgree _) (logOf_typedFor _)).2 rfl

/-- A Log with neither passes neither the inequality nor its negation. -/
theorem not_forall_twoValued :
    ¬∀ (env : Env) (tree : Syntax.Query) (q : Query), compileQuery env tree = .ok q →
      ∀ p, .whereStage p ∈ q.head ++ q.tail →
      ∀ (ch : ClickHouse) (group : List Sql.Row) (row : Sql.Row) (f : Fields),
        ch.TestsAreBools → ColumnsAgree ch group row f → TypedFor ch group row f p →
        TwoValued ch env.lib group row f p := by
  intro h
  have htwo := h unequalEnv unequalTree unequalQuery rfl unequalExpr (.head _) noFunctions []
    (logOf none) (clickHouseColumns none).toFields noFunctions_testsAreBools (logOf_columnsAgree _)
    (logOf_typedFor _)
  have hholds : (writeCondition Library.readsNothing (clickHouseColumns none).toFields unequalExpr false).holds
      noFunctions [] (logOf none) := htwo.1.2 rfl
  simp only [Sql.holds] at hholds
  exact absurd hholds (by decide)

end Wheres

end SolidTrace.LogQuery
