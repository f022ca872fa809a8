import SolidTrace.Lib.Yields
import SolidTrace.LogQuery.Stages

/-!
# What the compiler checks

What the compiler lets through, as a judgment on compiled expressions and stages: the scope of each
name, the types of operands, the arguments of functions. What is proved of compiled Queries is proved
from it, by induction on the judgment.
-/

namespace SolidTrace.LogQuery

section Judgment

/-- The size of bins is written in the Query, and above zero. -/
def BinChecked (x size : Expr) : Prop :=
  (x.typ = .time ∧ ∃ d, size = .literal (.timespan d) ∧ 0 < d) ∨
    (x.typ = .number ∧ ∃ n, size = .literal (.number n) ∧ 0 < n)

/-- The arguments of a scalar function. -/
def CallChecked (lib : Library) (fn : ScalarFunction) (args : List Expr) : Prop :=
  match fn, args with
  | .tostring, [_] | .toint, [_] | .tolong, [_] | .todouble, [_] | .toreal, [_] => True
  | .tolower, [x] | .toupper, [x] | .strlen, [x] => x.typ = .string
  | .bin, [x, size] | .floor, [x, size] => BinChecked x size
  | .extract, [regex, group, x] =>
    (∃ pattern, regex = .literal (.string pattern) ∧ lib.regexError pattern = none) ∧
      (∃ n : ℚ, group = .literal (.number n) ∧ 0 ≤ n) ∧ x.typ = .string
  | .substring, [x, start] => x.typ = .string ∧ start.typ = .number
  | .substring, [x, start, length] => x.typ = .string ∧ start.typ = .number ∧ length.typ = .number
  | .round, [x] => x.typ = .number
  | .round, [x, precision] => x.typ = .number ∧ precision.typ = .number
  | .arrayLength, [x] => x.typ = .dynamic
  | _, _ => False

/-- The types of an operator's operands, and of what it makes. -/
def ArithChecked (op : ArithOp) (x y t : ValueType) : Prop :=
  (x = .number ∧ y = .number ∧ t = .number) ∨
    ((op = .plus ∨ op = .minus) ∧
      ((x = .time ∧ y = .timespan ∧ t = .time) ∨ (x = .timespan ∧ y = .timespan ∧ t = .timespan)))

/-- The types of an aggregate's argument, and of what it makes. -/
def AggregateChecked (fn : AggregateFunction) (x t : ValueType) : Prop :=
  match fn with
  | .countif => x = .bool ∧ t = .number
  | .dcount => t = .number
  | .sum | .avg | .percentile => x = .number ∧ t = .number
  | .min | .max => x ≠ .bool ∧ x ≠ .dynamic ∧ t = x
  | _ => False

/-- An expression that compiles in a scope, where `agg` is what rates are counted in, if summarize's
functions are allowed. -/
inductive Checked (lib : Library) (scope : Scope) : Option RateBasis → Expr → Prop
  | builtIn {agg : Option RateBasis} {name : String} {t : ValueType} (hlogs : scope.logs = true)
      (hcolumn : scope.lookup name = none) (ht : builtInFields name = some t) :
      Checked lib scope agg (.fieldRef name true t)
  | attr {agg : Option RateBasis} {name : String} {t : ValueType} (hlogs : scope.logs = true)
      (hcolumn : scope.lookup name = none) (hbuiltIn : builtInFields name = none)
      (ht : t = .dynamic ∨ t.attributeType.isSome = true) :
      Checked lib scope agg (.fieldRef name false t)
  | attributeText {agg : Option RateBasis} {name : String} (hlogs : scope.logs = true)
      (hcolumn : scope.lookup name = none) (hbuiltIn : builtInFields name = none) :
      Checked lib scope agg (.attributeText name)
  | jsonValueText {agg : Option RateBasis} {x : Expr} (hx : Checked lib scope agg x)
      (hjson : isJSONValue x = true) : Checked lib scope agg (.jsonValueText x)
  | columnRef {agg : Option RateBasis} {col : Column} (hcol : scope.lookup col.name = some col) :
      Checked lib scope agg (.columnRef col.name col.t col.message)
  | partOf {agg : Option RateBasis} {x : Expr} {t : ValueType} (hx : Checked lib scope agg x)
      (hdynamic : x.typ = .dynamic) (ht : t.attributeType.isSome = true) :
      Checked lib scope agg (.partOf x t)
  | literal {agg : Option RateBasis} {l : Literal} : Checked lib scope agg (.literal l)
  | compare {agg : Option RateBasis} {x y : Expr} {op : CompareOp} (hx : Checked lib scope agg x)
      (hy : Checked lib scope agg y) (hknown : x.typ ≠ .dynamic ∨ y.typ ≠ .dynamic)
      (horder : op = .eq ∨ op = .ne ∨ x.typ = y.typ) : Checked lib scope agg (.compare x op y)
  | textMatch {agg : Option RateBasis} {op : MatchOp} {x : Expr} {pattern : String}
      {caseSensitive : Bool} (hx : Checked lib scope agg x) (ht : x.typ = .string)
      (hregex : op = .regex → lib.regexError pattern = none) :
      Checked lib scope agg (.textMatch op x pattern caseSensitive)
  | isEmpty {agg : Option RateBasis} {x : Expr} (hx : Checked lib scope agg x) :
      Checked lib scope agg (.isEmpty x)
  | and {agg : Option RateBasis} {x y : Expr} (hx : Checked lib scope agg x)
      (hy : Checked lib scope agg y) (htx : x.typ = .bool) (hty : y.typ = .bool) :
      Checked lib scope agg (.and x y)
  | or {agg : Option RateBasis} {x y : Expr} (hx : Checked lib scope agg x)
      (hy : Checked lib scope agg y) (htx : x.typ = .bool) (hty : y.typ = .bool) :
      Checked lib scope agg (.or x y)
  | not {agg : Option RateBasis} {x : Expr} (hx : Checked lib scope agg x) (htx : x.typ = .bool) :
      Checked lib scope agg (.not x)
  | arith {agg : Option RateBasis} {op : ArithOp} {x y : Expr} {t : ValueType}
      (hx : Checked lib scope agg x) (hy : Checked lib scope agg y)
      (ht : ArithChecked op x.typ y.typ t) : Checked lib scope agg (.arith op x y t)
  | negative {agg : Option RateBasis} {x : Expr} (hx : Checked lib scope agg x)
      (ht : x.typ = .number ∨ x.typ = .timespan) : Checked lib scope agg (.negative x)
  | call {agg : Option RateBasis} {fn : ScalarFunction} {args : List Expr} {t : ValueType}
      (hargs : ∀ x ∈ args, Checked lib scope agg x) (hcall : CallChecked lib fn args)
      (ht : t = resultType fn args) : Checked lib scope agg (.call fn args t)
  | parsedJSON {agg : Option RateBasis} {x : Expr} (hx : Checked lib scope agg x)
      (ht : x.typ = .string) : Checked lib scope agg (.parsedJSON x)
  | member {agg : Option RateBasis} {x : Expr} {path : List PathStep}
      (hx : Checked lib scope agg x) (ht : x.typ = .dynamic) : Checked lib scope agg (.member x path)
  | count {basis : RateBasis} : Checked lib scope (some basis) (.aggregate .count none 0 .number)
  | rate {basis : RateBasis} (hbin : basis.otherTime = false) :
      Checked lib scope (some basis) (.aggregate .rate none 0 .number)
  | peakRate {basis : RateBasis} (htime : basis.logTime = true)
      (hbin : basis.bin.tmod 1000000000 = 0) :
      Checked lib scope (some basis) (.aggregate .peakRate none 0 .number)
  /-- Aggregates are of values of the rows: none stands inside another. -/
  | aggregateOf {basis : RateBasis} {fn : AggregateFunction} {x : Expr} {percent : ℚ} {t : ValueType}
      (hx : Checked lib scope none x) (ht : AggregateChecked fn x.typ t) :
      Checked lib scope (some basis) (.aggregate fn (some x) percent t)

variable {lib : Library} {scope : Scope}

/-- What compiles without summarize's functions compiles where they are allowed. -/
theorem Checked.allowing {x : Expr} (h : Checked lib scope none x) (agg : Option RateBasis) :
    Checked lib scope agg x := by
  generalize hnone : (none : Option RateBasis) = without at h
  induction h with
  | builtIn hlogs hcolumn ht => exact .builtIn hlogs hcolumn ht
  | attr hlogs hcolumn hbuiltIn ht => exact .attr hlogs hcolumn hbuiltIn ht
  | attributeText hlogs hcolumn hbuiltIn => exact .attributeText hlogs hcolumn hbuiltIn
  | jsonValueText _ hjson ih => exact .jsonValueText (ih hnone) hjson
  | columnRef hcol => exact .columnRef hcol
  | partOf _ hdynamic ht ih => exact .partOf (ih hnone) hdynamic ht
  | literal => exact .literal
  | compare _ _ hknown horder ihx ihy => exact .compare (ihx hnone) (ihy hnone) hknown horder
  | textMatch _ ht hregex ih => exact .textMatch (ih hnone) ht hregex
  | isEmpty _ ih => exact .isEmpty (ih hnone)
  | and _ _ htx hty ihx ihy => exact .and (ihx hnone) (ihy hnone) htx hty
  | or _ _ htx hty ihx ihy => exact .or (ihx hnone) (ihy hnone) htx hty
  | not _ htx ih => exact .not (ih hnone) htx
  | arith _ _ ht ihx ihy => exact .arith (ihx hnone) (ihy hnone) ht
  | negative _ ht ih => exact .negative (ih hnone) ht
  | call _ hcall ht ih => exact .call (fun x hx => ih x hx hnone) hcall ht
  | parsedJSON _ ht ih => exact .parsedJSON (ih hnone) ht
  | member _ ht ih => exact .member (ih hnone) ht
  | count => cases hnone
  | rate => cases hnone
  | peakRate => cases hnone
  | aggregateOf => cases hnone

/-- Reading a checked expression as a type is checked. -/
theorem Checked.typed {agg : Option RateBasis} {x : Expr} (h : Checked lib scope agg x)
    (want : ValueType) : Checked lib scope agg (typed x want) := by
  unfold LogQuery.typed
  split
  next hpart =>
    simp only [Bool.and_eq_true, beq_iff_eq] at hpart
    exact .partOf h hpart.2 hpart.1
  · exact h

end Judgment

section Operands

/-- The compiler is at a stage of rows of a scope. -/
def AtScope (scope : Scope) (s : CompilerState) : Prop := s.scope = scope

/-- Whatever an expression compiles to in a scope is checked there, and the scope stays. -/
def Checks (c : Compile) : Prop :=
  ∀ env want agg scope, YieldsFrom (AtScope scope) (c env want agg) (Checked env.lib scope agg)

variable {env : Env} {cx cy : Compile} {agg : Option RateBasis} {scope : Scope}

/-- An error ends the compilation, so anything is checked of what it yields. -/
theorem errorAt_checks {α : Type} {I : CompilerState → Prop} {span : Span} {message : String}
    {P : α → Prop} : YieldsFrom I (errorAt span message) P := YieldsFrom.throw

/-- A read of a field leaves the scope. -/
theorem read_atScope {t : AttributeType} {key : String} :
    YieldsFrom (AtScope scope) (read t key) fun _ => True := by
  refine YieldsFrom.modify fun s hs => ?_
  split <;> exact hs

/-- Naming a field leaves the scope. -/
theorem named_atScope {key : String} : YieldsFrom (AtScope scope) (named key) fun _ => True := by
  refine YieldsFrom.modify fun s hs => ?_
  split <;> exact hs

/-- A name that is compiled is checked. -/
theorem name_checks {id : Syntax.Ident} : Checks (name id) := by
  intro env want agg scope
  unfold name
  generalize (if id.quoted = true then id.name else (fieldAliases id.name).getD id.name) = field
  refine YieldsFrom.get.bind fun s hs => ?_
  rw [show s.scope = scope from hs]
  simp only
  split
  next col hcol =>
    have hname : col.name = field := by simpa using List.find?_some hcol
    have hcolumn : scope.lookup col.name = some col := by rw [hname, hcol]
    refine .ite (fun hpart => .pure ?_) fun _ => .pure (.columnRef hcolumn)
    simp only [Bool.and_eq_true, beq_iff_eq] at hpart
    exact .partOf (.columnRef hcolumn) hpart.1 hpart.2
  next hcolumn =>
    refine .ite (fun _ => errorAt_checks) fun hlogs => ?_
    have hlogs : scope.logs = true := by simpa using hlogs
    split
    next t ht => exact .pure (.builtIn hlogs hcolumn ht)
    next hbuiltIn =>
      refine named_atScope.bind fun _ _ => ?_
      split
      next t ht =>
        refine read_atScope.bind fun _ _ => .pure ?_
        exact .attr hlogs hcolumn hbuiltIn (.inr (by rw [ht]; rfl))
      · refine (YieldsFrom.forM fun _ _ => read_atScope).bind fun _ _ => .pure ?_
        exact .attr hlogs hcolumn hbuiltIn (.inl rfl)

/-- A literal changes nothing. -/
theorem literal_keeps {lit : Syntax.BasicLit} {I : CompilerState → Prop} :
    YieldsFrom I (literal env lit) fun _ => True := by
  unfold literal numberLiteral
  repeat' split
  all_goals first
    | exact .pure trivial
    | exact errorAt_checks

/-- A number changes nothing. -/
theorem numberLiteral_keeps {lit : Syntax.BasicLit} {negative : Bool} {I : CompilerState → Prop} :
    YieldsFrom I (numberLiteral env lit negative) fun _ => True := by
  unfold numberLiteral
  split
  · exact errorAt_checks
  · exact .pure trivial

/-- A condition that compiles in a scope. -/
def IsTest (lib : Library) (scope : Scope) (agg : Option RateBasis) (x : Expr) : Prop :=
  Checked lib scope agg x ∧ x.typ = .bool

/-- A condition is compiled to a test. -/
theorem condition_checks {span : Span} (h : Checks cx) :
    YieldsFrom (AtScope scope) (condition cx span env) (IsTest env.lib scope none) := by
  unfold condition
  refine (h env .any none scope).bind fun x hx => ?_
  refine .ite (fun _ => errorAt_checks) fun ht => .pure ⟨hx, ?_⟩
  simpa using ht

/-- A sign or a negation is compiled to something checked. -/
theorem unary_checks {span : Span} {op : Syntax.Sign} {e : Syntax.Expr} (h : Checks cx) :
    Checks (unary span op e cx) := by
  intro env want agg scope
  unfold unary
  split
  · exact numberLiteral_keeps.bind fun _ _ => .pure .literal
  · refine (h env .number agg scope).bind fun x hx => ?_
    split
    · exact .pure .literal
    · refine .ite (fun _ => errorAt_checks) fun ht => ?_
      refine .ite (fun _ => .pure hx) fun _ => .pure (.negative hx ?_)
      simp only [bne_iff_ne, Bool.and_eq_true, ne_eq, not_and, not_not] at ht
      exact or_iff_not_imp_left.2 ht

/-- A text match is a test, as its pattern is one the library compiles. -/
theorem match_checked {lib : Library} {text : TextOp} {x : Expr} {pattern : String}
    (hx : Checked lib scope agg x) (ht : x.typ = .string)
    (hregex : text.op = .regex → lib.regexError pattern = none) :
    IsTest lib scope agg (text.match x pattern) := by
  have hmatch := @Checked.textMatch lib scope agg text.op x pattern text.caseSensitive hx ht hregex
  unfold TextOp.match
  simp only
  split
  · exact ⟨.not hmatch rfl, rfl⟩
  · exact ⟨hmatch, rfl⟩

/-- The operand of a text match is compiled to a text. -/
theorem textOperand_checks {span opSpan : Span} {text : TextOp} (h : Checks cx) :
    YieldsFrom (AtScope scope) (textOperand span opSpan text cx env agg) fun x =>
      Checked env.lib scope agg x ∧ x.typ = .string := by
  unfold textOperand
  refine (h env .string agg scope).bind fun x hx => ?_
  refine .ite (fun _ => errorAt_checks) fun ht => ?_
  have ht : x.typ = .string := by simpa using ht
  split
  · refine .ite (fun _ => read_atScope.bind fun _ _ => .pure ?_) fun _ => .pure ⟨hx, ht⟩
    cases hx with
    | attr hlogs hcolumn hbuiltIn _ => exact ⟨.attributeText hlogs hcolumn hbuiltIn, rfl⟩
  · refine .ite (fun hjson => .pure ?_) fun _ => .pure ⟨hx, ht⟩
    simp only [Bool.and_eq_true] at hjson
    cases hx with
    | partOf hpart _ _ => exact ⟨.jsonValueText hpart hjson.1, rfl⟩
  · exact .pure ⟨hx, ht⟩

/-- A misplaced parameter is an error. -/
theorem misplaced_checks {α : Type} {p : Syntax.Param} {I : CompilerState → Prop} {P : α → Prop} :
    YieldsFrom I (misplaced env p) P := by
  unfold misplaced
  exact .ite (fun _ => errorAt_checks) fun _ => errorAt_checks

/-- A pattern that passes is one the library compiles. -/
theorem checkRegex_checks {span : Span} {pattern : String} {I : CompilerState → Prop} :
    YieldsFrom I (checkRegex env span pattern) fun _ => env.lib.regexError pattern = none := by
  unfold checkRegex
  split
  · exact errorAt_checks
  next h => exact .pure h

/-- A text test is compiled to something checked. -/
theorem textTest_checks {x y : Syntax.Expr} {opSpan : Span} {text : TextOp} (h : Checks cx) :
    Checks (textTest x opSpan text y cx) := by
  intro env want agg scope
  unfold textTest
  refine (textOperand_checks h).bind fun operand ho => ?_
  split
  · exact misplaced_checks
  · refine .ite (fun _ => checkRegex_checks.bind fun _ hregex => .pure ?_) fun hop => .pure ?_
    · exact (match_checked ho.1 ho.2 fun _ => hregex).1
    · refine (match_checked ho.1 ho.2 fun hregex => ?_).1
      simp [hregex] at hop
  · exact errorAt_checks

/-- A comparison is compiled to something checked. -/
theorem compare_checks {span : Span} {x y : Syntax.Expr} {op : CompareOp} (hx : Checks cx)
    (hy : Checks cy) : Checks (compare span x op y cx cy) := by
  intro env want agg scope
  unfold compare
  refine (hy env .any agg scope).bind fun y₀ hy₀ => ?_
  refine (hx env _ agg scope).bind fun x' hx' => ?_
  have hrest : ∀ y', Checked env.lib scope agg y' → YieldsFrom (AtScope scope) (do
      if x'.typ == .dynamic && y'.typ == .dynamic then
        if isIdent x && isIdent y && (← get).scope.logs then
          errorAt y.span "expected a value: a string, a number, true or false"
        else
          errorAt span "can't compare two values whose types aren't known; convert one, as in tostring(a) == tostring(b)"
      else if op != .eq && op != .ne && x'.typ != y'.typ then
        errorAt span ("can't compare a " ++ x'.typ.text ++ " with a " ++ y'.typ.text)
      else if op != .eq && op != .ne && x'.typ == .bool then
        errorAt span "bools can only be compared with == and !="
      else return .compare x' op y' : Compiler Expr) (Checked env.lib scope agg) := by
    intro y' hy'
    refine .ite (fun _ => YieldsFrom.get.bind fun _ _ =>
      .ite (fun _ => errorAt_checks) fun _ => errorAt_checks) fun hknown => ?_
    refine .ite (fun _ => errorAt_checks) fun horder => ?_
    refine .ite (fun _ => errorAt_checks) fun _ => .pure (.compare hx' hy' ?_ ?_)
    · simp only [Bool.and_eq_true, beq_iff_eq, not_and] at hknown
      exact or_iff_not_imp_left.2 fun h => hknown (not_not.1 h)
    · simp only [Bool.and_eq_true, bne_iff_ne, ne_eq, not_and, not_not, and_imp] at horder
      by_cases heq : op = .eq
      · exact .inl heq
      by_cases hne : op = .ne
      · exact .inr (.inl hne)
      · exact .inr (.inr (horder heq hne))
  have hsame : YieldsFrom (AtScope scope) (pure y₀ : Compiler Expr) (Checked env.lib scope agg) :=
    .pure hy₀
  exact .ite (fun _ => (hy env _ agg scope).bind hrest) fun _ => hsame.bind hrest

/-- Arithmetic is compiled to something checked. -/
theorem arith_checks {span : Span} {op : ArithOp} (hx : Checks cx) (hy : Checks cy) :
    Checks (arith span op cx cy) := by
  intro env want agg scope
  unfold arith
  refine (hx env .number agg scope).bind fun x hx => ?_
  refine (hy env _ agg scope).bind fun y hy => ?_
  simp only [Bool.and_eq_true, Bool.or_eq_true, beq_iff_eq]
  refine .ite (fun h => .pure (.arith hx hy (.inl ⟨h.1, h.2, rfl⟩))) fun _ => ?_
  refine .ite (fun h => ?_) fun _ => ?_
  · split
    · exact .pure .literal
    · exact .pure (.arith hx hy (.inr ⟨h.2, .inl ⟨h.1.1, h.1.2, rfl⟩⟩))
  · exact .ite (fun h => .pure (.arith hx hy (.inr ⟨h.2, .inr ⟨h.1.1, h.1.2, rfl⟩⟩)))
      fun _ => errorAt_checks

/-- A comparison of a value with a literal for equality. -/
theorem checked_compareLiteral {lib : Library} {x : Expr} {op : CompareOp} {l : Literal}
    (hx : Checked lib scope agg x) (hop : op = .eq ∨ op = .ne) :
    Checked lib scope agg (.compare x op (.literal l)) := by
  refine .compare hx .literal (.inr ?_) ?_
  · cases l <;> simp [Expr.typ, Literal.valueType]
  · exact hop.imp_right .inl

/-- An `in` list's matches are conditions. -/
theorem inElem_checks {span : Span} {so : Option Expr} (hx : Checks cx) (hy : Checks cy)
    (hso : ∀ m ∈ so, IsTest env.lib scope agg m) :
    YieldsFrom (AtScope scope) (inElem cx span cy env agg so) (IsTest env.lib scope agg) := by
  unfold inElem
  refine (hy env .any agg scope).bind fun value hvalue => ?_
  split
  next l =>
    refine (hx env _ agg scope).bind fun x hx => ?_
    have heq := @checked_compareLiteral agg scope env.lib x .eq l hx (.inl rfl)
    split
    · exact .pure ⟨heq, rfl⟩
    next m => exact .pure ⟨.or (hso m rfl).1 heq (hso m rfl).2 rfl, rfl⟩
  · exact errorAt_checks

/-- Each element of an in is compared by a test, and so are all of them together. -/
theorem inElems_checks {rest : List (Span × Compile)} (hx : Checks cx)
    (hrest : ∀ e ∈ rest, Checks e.2) {m : Expr} (hm : IsTest env.lib scope agg m) :
    YieldsFrom (AtScope scope) (inElems cx env agg m rest) (IsTest env.lib scope agg) := by
  induction rest generalizing m with
  | nil => exact .pure hm
  | cons e rest ih =>
    unfold inElems
    refine (inElem_checks hx (hrest e List.mem_cons_self) ?_).bind fun m' hm' => ?_
    · intro m₀ hm₀
      cases hm₀
      exact hm
    · exact ih (fun e he => hrest e (List.mem_cons_of_mem _ he)) hm'

/-- An in is compiled to something checked. -/
theorem inList_checks {negated : Bool} {first : Span × Compile} {rest : List (Span × Compile)}
    (hx : Checks cx) (hfirst : Checks first.2) (hrest : ∀ e ∈ rest, Checks e.2) :
    Checks (inList negated cx first rest) := by
  intro env want agg scope
  unfold inList
  refine (inElem_checks hx hfirst (by simp)).bind fun m hm => ?_
  refine (inElems_checks hx hrest hm).bind fun all hall => .pure ?_
  split
  · exact .not hall.1 hall.2
  · exact hall.1

/-- A binary operation is compiled to something checked. -/
theorem binary_checks {x y : Syntax.Expr} {opSpan : Span} {op : Syntax.BinaryOp} (hx : Checks cx)
    (hy : Checks cy) : Checks (binary x opSpan op y cx cy) := by
  intro env want agg scope
  have hconditions : ∀ make : Expr → Expr → Expr,
      (∀ x y, IsTest env.lib scope none x → IsTest env.lib scope none y →
        Checked env.lib scope agg (make x y)) →
      YieldsFrom (AtScope scope)
        (do return make (← condition cx x.span env) (← condition cy y.span env))
        (Checked env.lib scope agg) := by
    intro make hmake
    refine (condition_checks hx).bind fun x' hx' => ?_
    exact (condition_checks hy).bind fun y' hy' => .pure (hmake x' y' hx' hy')
  unfold binary
  simp only
  split
  · exact hconditions .and fun x y hx hy => .and (hx.1.allowing agg) (hy.1.allowing agg) hx.2 hy.2
  · exact hconditions .or fun x y hx hy => .or (hx.1.allowing agg) (hy.1.allowing agg) hx.2 hy.2
  · split
    · exact arith_checks hx hy env want agg scope
    · exact compare_checks hx hy env want agg scope
    · exact textTest_checks hx env want agg scope
    · exact errorAt_checks

/-- A member is compiled to something checked. -/
theorem reach_checks {accessor : Span} {step : Env → Compiler PathStep} (h : Checks cx)
    (hstep : ∀ env scope, YieldsFrom (AtScope scope) (step env) fun _ => True) :
    Checks (reach accessor cx step) := by
  intro env want agg scope
  unfold reach
  refine (h env .any agg scope).bind fun x hx => ?_
  refine .ite (fun _ => errorAt_checks) fun ht => ?_
  have ht : x.typ = .dynamic := by simpa using ht
  refine (hstep env scope).bind fun step _ => ?_
  split
  · cases hx with
    | member hinner hdynamic => exact .pure ((Checked.member hinner hdynamic).typed want)
  · exact .pure ((Checked.member hx ht).typed want)

/-- A step of a path leaves the scope. -/
theorem pathStep_checks {span : Span} (h : Checks cx) :
    YieldsFrom (AtScope scope) (pathStep span cx env) fun _ => True := by
  unfold pathStep
  refine (h env .any none scope).bind fun x _ => ?_
  split
  · exact .pure trivial
  · exact .ite (fun _ => .pure trivial) fun _ => errorAt_checks
  · exact errorAt_checks

end Operands

section Calls

variable {env : Env} {agg : Option RateBasis} {scope : Scope}

/-- A test of emptiness is compiled to something checked. -/
theorem emptyTest_checks {fname : String} {span : Span} {negated : Bool} {args : List Arg}
    (h : ∀ arg ∈ args, Checks arg.2) :
    YieldsFrom (AtScope scope) (emptyTest fname span negated args env agg)
      (Checked env.lib scope agg) := by
  unfold emptyTest
  split
  next arg =>
    refine (h arg (by simp) env .any agg scope).bind fun x hx => .pure ?_
    split
    · exact .not (.isEmpty hx) rfl
    · exact .isEmpty hx
  · exact errorAt_checks

/-- Every size bin_auto picks from is above zero. -/
theorem autoBin_pos (span : ℤ) : 0 < autoBin span := by
  have hladder : ∀ size ∈ binLadder, 0 < size := by decide
  unfold autoBin
  split
  · decide
  · cases hfind : binLadder.find? fun size => span.tdiv size ≤ 100 with
    | none => decide
    | some size => exact hladder size (List.mem_of_find?_eq_some hfind)

/-- A bin that chooses its size is compiled to something checked. -/
theorem binAuto_checks {span : Span} {args : List Arg} (h : ∀ arg ∈ args, Checks arg.2) :
    YieldsFrom (AtScope scope) (binAuto span args env agg) (Checked env.lib scope agg) := by
  unfold binAuto
  split
  next arg =>
    refine (h arg (by simp) env .any agg scope).bind fun x hx => ?_
    refine .ite (fun _ => errorAt_checks) fun ht => .pure ?_
    have ht : x.typ = .time := by simpa using ht
    refine .call ?_ (.inl ⟨ht, _, rfl, autoBin_pos _⟩) ht.symm
    simp only [List.forall_mem_cons]
    exact ⟨hx, .literal, nofun⟩
  · exact errorAt_checks

/-- A timespan leaves the scope. -/
theorem timespan_checks {arg : Arg} (h : Checks arg.2) :
    YieldsFrom (AtScope scope) (timespan arg env) fun _ => True := by
  unfold timespan
  refine (h env .timespan none scope).bind fun x _ => ?_
  split
  · exact .pure trivial
  · exact errorAt_checks

/-- The argument of a numeric aggregate is a number that holds no aggregate. -/
theorem numberArg_checks {fn : AggregateFunction} {arg : Arg} (h : Checks arg.2) :
    YieldsFrom (AtScope scope) (numberArg fn arg env) fun x =>
      Checked env.lib scope none x ∧ x.typ = .number := by
  unfold numberArg
  refine (h env .number none scope).bind fun x hx => ?_
  refine .ite (fun _ => errorAt_checks) fun ht => .pure ⟨hx, ?_⟩
  simpa using ht

/-- The argument of min or max is compiled to something checked. -/
theorem extremeArg_checks {basis : RateBasis} {fn : AggregateFunction} {arg : Arg}
    (hfn : fn = .min ∨ fn = .max) (h : Checks arg.2) :
    YieldsFrom (AtScope scope) (extremeArg fn arg env) (Checked env.lib scope (some basis)) := by
  unfold extremeArg
  refine (h env .any none scope).bind fun x₀ hx₀ => ?_
  have hrest : ∀ x, Checked env.lib scope none x ∧ x.typ ≠ .dynamic → YieldsFrom (AtScope scope)
      (if x.typ == .bool then
        errorAt arg.1 s!"{fn.text} takes a number, a string or a time, not a bool"
      else return .aggregate fn (some x) 0 x.typ : Compiler Expr)
      (Checked env.lib scope (some basis)) := by
    intro x hx
    refine .ite (fun _ => errorAt_checks) fun hbool => .pure (.aggregateOf hx.1 ?_)
    have hbool : x.typ ≠ .bool := by simpa using hbool
    rcases hfn with rfl | rfl <;> exact ⟨hbool, hx.2, rfl⟩
  refine .ite (fun _ => ?_) fun hdynamic => ?_
  · refine (numberArg_checks h).bind fun x hx => hrest x ⟨hx.1, ?_⟩
    simp [hx.2]
  · refine (YieldsFrom.pure (P := fun x => Checked env.lib scope none x ∧ x.typ ≠ .dynamic) ?_).bind hrest
    exact ⟨hx₀, by simpa using hdynamic⟩

/-- A percentile leaves the scope. -/
theorem percentArg_checks {arg : Arg} (h : Checks arg.2) :
    YieldsFrom (AtScope scope) (percentArg arg env) fun _ => True := by
  unfold percentArg
  refine (h env .number none scope).bind fun x _ => ?_
  split
  · exact .ite (fun _ => errorAt_checks) fun _ => .pure trivial
  · exact errorAt_checks

/-- The arguments of a rate change nothing. -/
theorem rateArgs_keeps {span : Span} {fn : AggregateFunction} {args : List Arg}
    {I : CompilerState → Prop} : YieldsFrom I (rateArgs span fn args) fun _ => True := by
  unfold rateArgs
  exact .ite (fun _ => .pure trivial) fun _ => errorAt_checks

/-- An aggregate is compiled to something checked. -/
theorem aggregate_checks {span : Span} {fn : AggregateFunction} {args : List Arg}
    {basis : RateBasis} (h : ∀ arg ∈ args, Checks arg.2) :
    YieldsFrom (AtScope scope) (aggregate span fn args basis env)
      (Checked env.lib scope (some basis)) := by
  unfold aggregate
  split
  · exact .pure .count
  · exact errorAt_checks
  · refine rateArgs_keeps.bind fun _ _ => ?_
    refine .ite (fun _ => errorAt_checks) fun hbin => .pure (.rate (by simpa using hbin))
  · refine rateArgs_keeps.bind fun _ _ => ?_
    refine .ite (fun _ => errorAt_checks) fun htime => ?_
    refine .ite (fun _ => errorAt_checks) fun hbin => .pure (.peakRate ?_ ?_)
    · simpa using htime
    · simpa using hbin
  · refine (condition_checks (h _ (by simp))).bind fun x hx => .pure ?_
    exact .aggregateOf hx.1 ⟨hx.2, rfl⟩
  · exact errorAt_checks
  · refine (numberArg_checks (h _ (by simp))).bind fun x hx => ?_
    refine (percentArg_checks (h _ (by simp))).bind fun percent _ => .pure ?_
    exact .aggregateOf hx.1 ⟨hx.2, rfl⟩
  · exact errorAt_checks
  · refine (numberArg_checks (h _ (by simp))).bind fun x hx => .pure ?_
    exact .aggregateOf hx.1 ⟨hx.2, rfl⟩
  · refine (numberArg_checks (h _ (by simp))).bind fun x hx => .pure ?_
    exact .aggregateOf hx.1 ⟨hx.2, rfl⟩
  · exact extremeArg_checks (.inl rfl) (h _ (by simp))
  · exact extremeArg_checks (.inr rfl) (h _ (by simp))
  · refine (h _ (by simp) env .any none scope).bind fun x hx => .pure ?_
    exact .aggregateOf hx rfl
  · exact errorAt_checks

/-- The arguments of a function, as many as are given and asked for. -/
theorem scalarArgs_checks {types : List ValueType} {args : List Arg}
    (h : ∀ arg ∈ args, Checks arg.2) :
    YieldsFrom (AtScope scope) (scalarArgs env agg types args) fun xs =>
      (∀ x ∈ xs, Checked env.lib scope agg x.1) ∧ xs.length = min types.length args.length := by
  induction types generalizing args with
  | nil => exact .pure ⟨nofun, by simp⟩
  | cons t types ih =>
    cases args with
    | nil => exact .pure ⟨nofun, by simp⟩
    | cons arg args =>
      unfold scalarArgs
      refine (h arg List.mem_cons_self env t agg scope).bind fun x hx => ?_
      refine (ih fun arg harg => h arg (List.mem_cons_of_mem _ harg)).bind fun xs hxs => .pure ?_
      exact ⟨List.forall_mem_cons.2 ⟨hx, hxs.1⟩, by simp [hxs.2]⟩

/-- An argument that passes has the type that is needed. -/
theorem needs_checks {fname what : String} {t : ValueType} {arg : Expr × Span}
    {I : CompilerState → Prop} : YieldsFrom I (needs fname t arg what) fun _ => arg.1.typ = t := by
  unfold needs
  refine .ite (fun _ => errorAt_checks) fun h => .pure ?_
  simpa using h

/-- The arguments of a bin that passes are a time and a timespan, or two numbers. -/
theorem binArgs_checks {fname : String} {span : Span} {x size : Expr × Span}
    {I : CompilerState → Prop} :
    YieldsFrom I (checkCall.binArgs fname span x size) fun _ => BinChecked x.1 size.1 := by
  unfold checkCall.binArgs
  refine .ite (fun _ => errorAt_checks) fun htypes => ?_
  refine .ite (fun _ => errorAt_checks) fun hsize => .pure ?_
  obtain ⟨size, span'⟩ := size
  simp only [Bool.and_eq_true, Bool.not_eq_true', Bool.and_eq_false_imp, beq_iff_eq, not_and] at htypes
  have hsize : isSize size = true := by simpa using hsize
  cases size with
  | literal l =>
    cases l with
    | timespan d =>
      have hd : 0 < d := by
        refine not_le.1 fun h => ?_
        simp [isSize, Literal.timespanOf, Literal.numberOf, h] at hsize
      simp only [Expr.typ, Literal.valueType] at htypes
      exact .inl ⟨by simpa using htypes, d, rfl, hd⟩
    | number n =>
      have hn : 0 < n := by
        refine not_le.1 fun h => ?_
        simp [isSize, Literal.timespanOf, Literal.numberOf, h] at hsize
      simp only [Expr.typ, Literal.valueType] at htypes
      exact .inr ⟨by simpa using htypes, n, rfl, hn⟩
    | _ => simp [isSize, Literal.timespanOf, Literal.numberOf] at hsize
  | _ => cases hsize

/-- How many arguments each function takes. -/
def arityOf : ScalarFunction → ℕ × ℕ
  | .bin | .floor => (2, 2)
  | .extract => (3, 3)
  | .substring => (2, 3)
  | .round => (1, 2)
  | _ => (1, 1)

/-- A function is given as many arguments as its kind takes. -/
theorem scalarFunctions_arity {fname : String} {f : Function} {fn : ScalarFunction}
    (h : scalarFunctions fname = some f) (hfn : f.fn = some fn) :
    f.args.length - f.optional = (arityOf fn).1 ∧ f.args.length = (arityOf fn).2 := by
  unfold scalarFunctions at h
  split at h <;> cases h <;> cases hfn <;> decide

/-- A group is a number from 0 on. -/
theorem isGroup_checked {x : Expr} (h : isGroup x = true) :
    ∃ n : ℚ, x = .literal (.number n) ∧ 0 ≤ n := by
  unfold isGroup at h
  split at h
  next n =>
    simp only [Bool.and_eq_true, Bool.not_eq_true', decide_eq_false_iff_not, not_lt] at h
    exact ⟨n, rfl, h.1⟩
  · cases h

/-- The arguments of an extract that passes are a pattern, a group of it and a text. -/
theorem extractArgs_checks {fname : String} {span : Span} {regex group x : Expr × Span}
    {I : CompilerState → Prop} :
    YieldsFrom I (checkCall env fname span (some .extract) [regex, group, x]) fun _ =>
      CallChecked env.lib .extract [regex.1, group.1, x.1] := by
  have hrest : ∀ pattern, regex.1 = .literal (.string pattern) → env.lib.regexError pattern = none →
      YieldsFrom I (do
        if !isGroup group.1 then
          errorAt group.2 "extract needs its capture group written in the Query, as a whole number of 0 or more"
        needs fname .string x "takes a string" : Compiler Unit) fun _ =>
        CallChecked env.lib .extract [regex.1, group.1, x.1] := by
    intro pattern hregex hpattern
    refine .ite (fun _ => errorAt_checks) fun hgroup => ?_
    refine needs_checks.mono fun _ hx => ⟨⟨pattern, hregex, hpattern⟩, ?_, hx⟩
    exact isGroup_checked (by simpa using hgroup)
  simp only [checkCall]
  split
  next pattern hregex => exact checkRegex_checks.bind fun _ hpattern => hrest pattern hregex hpattern
  · exact errorAt_checks

/-- A call that passes has arguments of the types its function needs. -/
theorem checkCall_checks {fname : String} {span : Span} {fn : ScalarFunction}
    {args : List (Expr × Span)} {I : CompilerState → Prop}
    (hleast : (arityOf fn).1 ≤ args.length) (hmost : args.length ≤ (arityOf fn).2) :
    YieldsFrom I (checkCall env fname span (some fn) args) fun _ =>
      CallChecked env.lib fn (args.map Prod.fst) := by
  cases fn
  case bin =>
    obtain ⟨x, size, rfl⟩ := List.length_eq_two.1 (le_antisymm hmost hleast)
    exact binArgs_checks
  case floor =>
    obtain ⟨x, size, rfl⟩ := List.length_eq_two.1 (le_antisymm hmost hleast)
    exact binArgs_checks
  case extract =>
    obtain ⟨regex, group, x, rfl⟩ := List.length_eq_three.1 (le_antisymm hmost hleast)
    exact extractArgs_checks
  case substring =>
    match args, hleast, hmost with
    | [x, start], _, _ =>
      refine needs_checks.bind fun _ hx => needs_checks.mono fun _ hstart => ⟨hx, hstart⟩
    | [x, start, length], _, _ =>
      refine needs_checks.bind fun _ hx => needs_checks.bind fun _ hstart => ?_
      exact needs_checks.mono fun _ hlength => ⟨hx, hstart, hlength⟩
  case round =>
    match args, hleast, hmost with
    | [x], _, _ => exact needs_checks.bind fun _ hx => .pure hx
    | [x, precision], _, _ =>
      exact needs_checks.bind fun _ hx => needs_checks.mono fun _ hprecision => ⟨hx, hprecision⟩
  all_goals
    obtain ⟨x, rfl⟩ := List.length_eq_one_iff.1 (le_antisymm hmost hleast)
    first
    | exact .pure trivial
    | exact needs_checks

/-- A scalar function is compiled to something checked. -/
theorem scalar_checks {fname : String} {span : Span} {f : Function} {args : List Arg}
    (hf : scalarFunctions fname = some f) (h : ∀ arg ∈ args, Checks arg.2) :
    YieldsFrom (AtScope scope) (scalar fname span f args env agg) (Checked env.lib scope agg) := by
  unfold scalar
  refine .ite (fun _ => ?_) fun hlength => ?_
  · split <;> exact errorAt_checks
  · simp only [Bool.or_eq_true, decide_eq_true_eq, not_or, not_lt] at hlength
    refine (scalarArgs_checks h).bind fun xs hxs => ?_
    cases hfn : f.fn with
    | none =>
      have hparse : YieldsFrom (AtScope scope) (checkCall env fname span none xs) fun _ =>
          ∀ x ∈ xs.head?, x.1.typ = .string := by
        cases xs with
        | nil => exact .pure nofun
        | cons x rest => exact needs_checks.mono fun _ hx y hy => by cases hy; exact hx
      refine hparse.bind fun _ hstring => ?_
      cases xs with
      | nil => exact errorAt_checks
      | cons x rest => exact .pure (.parsedJSON (hxs.1 x List.mem_cons_self) (hstring x rfl))
    | some fn =>
      have harity := scalarFunctions_arity hf hfn
      refine (@checkCall_checks env fname span fn xs _ (by omega) (by omega)).bind
        fun _ hcall => .pure (.call ?_ hcall rfl)
      simpa using hxs.1

/-- A call, whatever its function, is compiled to something checked. -/
theorem callOf_checks {span : Span} {func : Syntax.Ident} {args : List Arg}
    (h : ∀ arg ∈ args, Checks arg.2) :
    YieldsFrom (AtScope scope) (callOf span func args env agg) (Checked env.lib scope agg) := by
  unfold callOf
  split
  · refine (@condition_checks { env with inNot := true } _ _ _ (h _ (by simp))).bind
      fun x hx => .pure (.not (hx.1.allowing agg) hx.2)
  · exact errorAt_checks
  · exact .pure .literal
  · exact errorAt_checks
  · exact (timespan_checks (h _ (by simp))).bind fun _ _ => .pure .literal
  · exact errorAt_checks
  · exact binAuto_checks h
  · split
    · exact emptyTest_checks h
    · split
      · exact errorAt_checks
      · exact aggregate_checks h
    next hf _ _ => exact scalar_checks hf h
    · exact errorAt_checks

/-- A call, with what it says of itself, is compiled to something checked. -/
theorem call_checks {span : Span} {func : Syntax.Ident} {args : List Arg}
    (h : ∀ arg ∈ args, Checks arg.2) : Checks (call span func args) := by
  intro env want agg scope
  unfold call
  exact (callOf_checks h).bind fun x hx => .pure (hx.typed want)

end Calls

section Exprs

mutual

/-- Every expression compiles to one that is checked. -/
theorem expr_checks : ∀ e : Syntax.Expr, Checks (expr e)
  | .ident _ => name_checks
  | .param _ => fun _ _ _ _ => misplaced_checks
  | .basicLit _ => fun _ _ _ _ => literal_keeps.bind fun _ _ => .pure .literal
  | .binary x _ _ y => binary_checks (expr_checks x) (expr_checks y)
  | .inList x _ _ _ first rest _ =>
    inList_checks (expr_checks x) (expr_checks first) (exprs_checks rest)
  | .unary _ _ x => unary_checks (expr_checks x)
  | .paren _ x _ => expr_checks x
  | .call _ _ args _ => call_checks (exprs_checks args)
  | .member x _ _ => reach_checks (expr_checks x) fun _ _ => .pure trivial
  | .index x _ index _ =>
    reach_checks (expr_checks x) fun _ _ => pathStep_checks (expr_checks index)

/-- Each of some expressions is compiled to something checked. -/
theorem exprs_checks : ∀ es : List Syntax.Expr, ∀ arg ∈ exprs es, Checks arg.2
  | [] => nofun
  | x :: rest => by
    intro arg harg
    simp only [exprs, List.mem_cons] at harg
    rcases harg with rfl | harg
    · exact expr_checks x
    · exact exprs_checks rest arg harg

end

end Exprs

section Predicates

variable {env : Env} {scope : Scope}

/-- The values of a parameter leave the scope. -/
theorem valuesOf_atScope {p : Syntax.Param} :
    YieldsFrom (AtScope scope) (valuesOf env p) fun _ => True := by
  refine (YieldsFrom.modify fun s hs => ?_).bind fun _ _ => .pure trivial
  split <;> exact hs

/-- Tests joined, or their negations, are a test. -/
theorem isTest_join {lib : Library} {negated : Bool} {x y : Expr} (hx : IsTest lib scope none x)
    (hy : IsTest lib scope none y) : IsTest lib scope none (if negated then .and x y else .or x y) := by
  split
  · exact ⟨.and hx.1 hy.1 hx.2 hy.2, rfl⟩
  · exact ⟨.or hx.1 hy.1 hx.2 hy.2, rfl⟩

/-- A filter for one value is compiled to a test. -/
theorem filterValue_checks {text : Option TextOp} {negated : Bool} {side : Compile} {x : Expr}
    {v : String} (hside : Checks side) (hx : Checked env.lib scope none x)
    (htext : ∀ t ∈ text, x.typ = .string ∧ t.op ≠ .regex) :
    YieldsFrom (AtScope scope) (filterValue env text negated side x v) (IsTest env.lib scope none) := by
  have hop : (if negated then CompareOp.ne else .eq) = .eq ∨ (if negated then CompareOp.ne else .eq) = .ne := by
    cases negated <;> simp
  have hother : ∀ m, IsTest env.lib scope none m → ∀ (readsOther : Bool) (l : Literal),
      YieldsFrom (AtScope scope) (if untyped x && readsOther then do
          let y ← side env l.valueType none
          let other := Expr.compare y (if negated then .ne else .eq) (.literal l)
          return if negated then .and m other else .or m other
        else return m : Compiler Expr) (IsTest env.lib scope none) := by
    intro m hm readsOther l
    refine .ite (fun _ => ?_) fun _ => .pure hm
    refine (hside env _ none scope).bind fun y hy => .pure ?_
    exact isTest_join hm ⟨checked_compareLiteral hy hop, rfl⟩
  unfold filterValue
  cases text with
  | none =>
    simp only
    split
    · exact hother _ ⟨checked_compareLiteral hx hop, rfl⟩ _ _
    · exact .pure ⟨checked_compareLiteral hx hop, rfl⟩
  | some text =>
    obtain ⟨ht, hregex⟩ := htext text rfl
    have hm : IsTest env.lib scope none (text.match x v) := match_checked hx ht fun h => absurd h hregex
    simp only
    split
    · exact hother _ hm _ _
    · exact .pure hm

/-- A filter for each value is compiled to a test of them all. -/
theorem filterValues_checks {text : Option TextOp} {negated : Bool} {side : Compile} {x : Expr}
    {values : List String} (hside : Checks side) (hx : Checked env.lib scope none x)
    (htext : ∀ t ∈ text, x.typ = .string ∧ t.op ≠ .regex) {all : Expr}
    (hall : IsTest env.lib scope none all) :
    YieldsFrom (AtScope scope) (filterValues env text negated side x all values)
      (IsTest env.lib scope none) := by
  induction values generalizing all with
  | nil => exact .pure hall
  | cons v rest ih =>
    unfold filterValues
    exact (filterValue_checks hside hx htext).bind fun m hm => ih (isTest_join hall hm)

/-- A condition, or a comparison with a filter set to All. -/
def IsPredicate (lib : Library) (scope : Scope) (x : Expr) : Prop :=
  x = .always ∨ IsTest lib scope none x

/-- A predicate that does not always hold is a test. -/
theorem IsPredicate.test {lib : Library} {x : Expr} (h : IsPredicate lib scope x)
    (halways : x.isAlways ≠ true) : IsTest lib scope none x := by
  rcases h with rfl | h
  · simp [Expr.isAlways] at halways
  · exact h

/-- No filter is compared by a regular expression. -/
theorem filterOps_regex {op : Syntax.BinaryOp} {text : TextOp} (hop : filterOps op ≠ none)
    (htext : textOp? op = some text) : text.op ≠ .regex := by
  cases op <;> cases htext <;> simp [filterOps] at hop ⊢

/-- A filter is compiled to a predicate. -/
theorem filter_checks {opSpan : Span} {op : Syntax.BinaryOp} {p : Syntax.Param} {side : Syntax.Expr}
    (hop : filterOps op ≠ none) :
    YieldsFrom (AtScope scope) (filter env opSpan op p side) (IsPredicate env.lib scope) := by
  have hforget : ∀ before : CompilerState, YieldsFrom (AtScope scope) (do
      modify fun s => { s with readOrder := before.readOrder, names := before.names }
      return .always : Compiler Expr) (IsPredicate env.lib scope) := by
    intro before
    refine (YieldsFrom.modify ?_).bind fun _ _ => .pure (.inl rfl)
    exact fun s hs => hs
  have hvalues : ∀ (text : Option TextOp) (negated : Bool) (x : Expr) (v : String)
      (rest : List String), Checked env.lib scope none x →
      (∀ t ∈ text, x.typ = .string ∧ t.op ≠ .regex) → YieldsFrom (AtScope scope) (do
        let m ← filterValue env text negated (expr side) x v
        filterValues env text negated (expr side) x m rest) (IsPredicate env.lib scope) := by
    intro text negated x v rest hx htext
    refine (filterValue_checks (expr_checks side) hx htext).bind fun m hm => ?_
    exact (filterValues_checks (expr_checks side) hx htext hm).mono fun _ => .inr
  unfold filter
  split
  · exact errorAt_checks
  · refine valuesOf_atScope.bind fun values _ => YieldsFrom.get.bind fun before _ => ?_
    simp only
    split
    next text htext =>
      refine (textOperand_checks (expr_checks side)).bind fun x hx => ?_
      split
      · exact hforget before
      · refine hvalues _ _ x _ _ hx.1 fun t ht => ⟨hx.2, ?_⟩
        exact filterOps_regex hop ht
    next htext =>
      refine (expr_checks side env .string none scope).bind fun x hx => ?_
      split
      · exact hforget before
      · refine hvalues _ _ x _ _ hx fun t ht => ?_
        rw [htext] at ht
        cases ht

/-- Only an operator that filters has a parameter for a side. -/
theorem filterSides_op {x y side : Syntax.Expr} {op : Syntax.BinaryOp} {p : Syntax.Param}
    (h : filterSides x op y = some (p, side)) : filterOps op ≠ none := by
  intro hnone
  simp [filterSides, hnone] at h

/-- A where's condition is one, or keeps every row. -/
theorem predicate_checks : ∀ e : Syntax.Expr,
    YieldsFrom (AtScope scope) (predicate env e) (IsPredicate env.lib scope) := by
  apply predicate_induct env (motive := fun _ m => YieldsFrom (AtScope scope) m (IsPredicate env.lib scope))
  case paren => exact fun _ _ _ ih => ih
  case and =>
    intro x opSpan y ihx ihy
    refine ihx.bind fun x hx => ihy.bind fun y hy => .pure ?_
    split
    · exact hy
    next hxa =>
      split
      · exact hx
      next hya =>
        have htx := hx.test hxa
        have hty := hy.test hya
        exact .inr ⟨.and htx.1 hty.1 htx.2 hty.2, rfl⟩
  case or =>
    intro x opSpan y ihx ihy
    refine ihx.bind fun x hx => ihy.bind fun y hy => .pure ?_
    split
    · exact .inl rfl
    next ha =>
      simp only [Bool.or_eq_true, not_or] at ha
      have htx := hx.test ha.1
      have hty := hy.test ha.2
      exact .inr ⟨.or htx.1 hty.1 htx.2 hty.2, rfl⟩
  case filters => exact fun _ _ _ _ _ _ _ _ hsides => filter_checks (filterSides_op hsides)
  case plain => exact fun _ _ _ _ _ _ _ => (condition_checks (expr_checks _)).mono fun _ => .inr
  case other => exact fun _ _ _ => (condition_checks (expr_checks _)).mono fun _ => .inr

end Predicates

section StageJudgment

/-- The columns of a stage: each is checked, and no two are named alike. -/
def ColumnsChecked (lib : Library) (scope : Scope) (agg : Option RateBasis)
    (columns : List NamedValue) : Prop :=
  (∀ col ∈ columns, Checked lib scope agg col.x) ∧ (columns.map NamedValue.name).Nodup

/-- A stage that compiles in a scope after the stages `before`, the last of them first. -/
def StageChecked (lib : Library) (before : List Stage) (scope : Scope) : Stage → Prop
  | .whereStage p => IsTest lib scope none p
  | .searchStage terms => terms ≠ []
  | .projectStage columns => ColumnsChecked lib scope none columns
  | .extendStage columns => ColumnsChecked lib scope none columns
  | .summarizeStage columnsBy aggregates =>
    ColumnsChecked lib scope none columnsBy ∧
      ColumnsChecked lib scope (some (rateBasisOf before scope columnsBy)) aggregates ∧
      (∀ col ∈ aggregates, hasAggregate none col.x = true) ∧
      columnsBy ++ aggregates ≠ [] ∧ ((columnsBy ++ aggregates).map NamedValue.name).Nodup
  | .sortStage keys => ∀ key ∈ keys, Checked lib scope none key.x
  | .takeStage n => n ≤ 9223372036854775807
  | .topStage n key => n ≤ 9223372036854775807 ∧ Checked lib scope none key.x
  | .countStage => True
  | .distinctStage columns => ColumnsChecked lib scope none columns

/-- The scope after a stage. -/
def Stage.scopeAfter (scope : Scope) : Stage → Scope
  | .projectStage columns => ⟨false, columnsOf columns⟩
  | .extendStage columns => { scope with columns := extendColumns scope.columns (columnsOf columns) }
  | .summarizeStage columnsBy aggregates => ⟨false, columnsOf (columnsBy ++ aggregates)⟩
  | .countStage => ⟨false, [⟨"Count", .number, false⟩]⟩
  | .distinctStage columns => ⟨false, columnsOf columns⟩
  | _ => scope

def scopeAfterAll (scope : Scope) (stages : List Stage) : Scope :=
  stages.foldl Stage.scopeAfter scope

/-- Stages that compile one after another. -/
def TailChecked (lib : Library) : List Stage → Scope → List Stage → Prop
  | _, _, [] => True
  | before, scope, s :: rest =>
    StageChecked lib before scope s ∧ TailChecked lib (s :: before) (s.scopeAfter scope) rest

/-- Whether a stage only keeps or drops each Log. -/
def filtersLogs : Stage → Bool
  | .whereStage _ => true
  | .searchStage _ => true
  | _ => false

/-- The table's columns over its last stage, where the Query names some Attributes. -/
def outputOf (scope : Scope) (names : List String) : List NamedValue :=
  if scope.logs then logColumns scope names
  else scope.columns.map fun col => ⟨col.name, .columnRef col.name col.t false, .null⟩

/-- A Query that compiles. -/
structure QueryChecked (lib : Library) (q : Query) : Prop where
  head : ∀ s ∈ q.head, filtersLogs s = true ∧ StageChecked lib [] .logScope s
  tail : TailChecked lib [] .logScope q.tail
  table : q.table = q.tail.any makesTable
  take : q.take = takeOf q.tail
  output : q.table = true → ∃ names, q.output = outputOf (scopeAfterAll .logScope q.tail) names
  noOutput : q.table = false → q.output = []
  shape : q.table = true → q.shape = shapeOf q.tail q.output

end StageJudgment

section Stages

variable {env : Env} {scope : Scope} {agg : Option RateBasis}

/-- Names that pass are all different. -/
theorem uniqueNames_checks {seen : List String} {columns : List NamedValue}
    {I : CompilerState → Prop} (hseen : seen.Nodup) :
    YieldsFrom I (uniqueNames env seen columns) fun _ =>
      (seen ++ columns.map NamedValue.name).Nodup := by
  induction columns generalizing seen with
  | nil => exact .pure (by simpa using hseen)
  | cons col rest ih =>
    unfold uniqueNames
    refine .ite (fun _ => errorAt_checks) fun hnew => ?_
    have hnew : col.name ∉ seen := by simpa using hnew
    have hnodup : (seen ++ [col.name]).Nodup := by
      refine List.nodup_append.2 ⟨hseen, by simp, ?_⟩
      rintro name hname _ hcol rfl
      rw [List.mem_singleton.1 hcol] at hname
      exact hnew hname
    refine (ih hnodup).mono fun _ h => ?_
    simpa using h

/-- Named columns are compiled one for each expression, and each is checked. -/
theorem namedColumns_checks {i : ℕ} {exprs : List Syntax.NamedExpr} :
    YieldsFrom (AtScope scope) (namedColumns env agg i exprs) fun columns =>
      (∀ col ∈ columns, Checked env.lib scope agg col.x) ∧ columns.length = exprs.length := by
  induction exprs generalizing i with
  | nil => exact .pure ⟨nofun, rfl⟩
  | cons e rest ih =>
    unfold namedColumns
    refine (expr_checks e.x env .any agg scope).bind fun x hx => ?_
    refine ih.bind fun columns hcolumns => .pure ⟨?_, by simp [hcolumns.2]⟩
    exact List.forall_mem_cons.2 ⟨hx, hcolumns.1⟩

/-- Columns are compiled one for each expression, checked and named apart. -/
theorem columns_checks {exprs : List Syntax.NamedExpr} :
    YieldsFrom (AtScope scope) (columns env exprs agg) fun columns =>
      ColumnsChecked env.lib scope agg columns ∧ columns.length = exprs.length := by
  unfold columns
  refine namedColumns_checks.bind fun columns hcolumns => ?_
  refine (uniqueNames_checks List.nodup_nil).bind fun _ hnodup => .pure ?_
  exact ⟨⟨hcolumns.1, by simpa using hnodup⟩, hcolumns.2⟩

/-- A sort key is compiled to something checked. -/
theorem sortKey_checks {key : Syntax.SortKey} :
    YieldsFrom (AtScope scope) (sortKey env key) fun k => Checked env.lib scope none k.x :=
  (expr_checks key.x env .any none scope).bind fun _ hx => .pure hx

/-- A count of rows fits an int64. -/
theorem rowCount_checks {lit : Syntax.BasicLit} {I : CompilerState → Prop} :
    YieldsFrom I (rowCount lit) fun n => n ≤ 9223372036854775807 := by
  unfold rowCount
  split
  · exact .ite (fun h => .pure h) fun _ => errorAt_checks
  · exact errorAt_checks

/-- An aggregate that passes holds an aggregate. -/
theorem checkAggregates_checks {aggregates : List NamedValue} {exprs : List Syntax.NamedExpr}
    {I : CompilerState → Prop} (hlength : aggregates.length = exprs.length) :
    YieldsFrom I (checkAggregates aggregates exprs) fun _ =>
      ∀ col ∈ aggregates, hasAggregate none col.x = true := by
  induction aggregates generalizing exprs with
  | nil => exact .pure nofun
  | cons a rest ih =>
    cases exprs with
    | nil => cases hlength
    | cons e es =>
      unfold checkAggregates
      refine .ite (fun ha => ?_) fun _ => errorAt_checks
      exact (ih (by simpa using hlength)).mono fun _ h => List.forall_mem_cons.2 ⟨ha, h⟩

/-- What a stage is checked to be, and the scope it leaves. -/
def LeavesScope (lib : Library) (before : List Stage) (scope : Scope) (s : Stage)
    (state : CompilerState) : Prop :=
  (keepsAll s = true ∨ StageChecked lib before scope s) ∧ AtScope (s.scopeAfter scope) state

/-- A stage is compiled to a checked one and leaves the scope after it. -/
theorem stage_checks {before : List Stage} (s : Syntax.Stage) :
    YieldsTo (AtScope scope) (stage env before s) (LeavesScope env.lib before scope) := by
  cases s <;> simp only [stage]
  case whereStage _ _ p =>
    refine YieldsTo.bind (predicate_checks p) fun p => YieldsTo.pure fun s hs => ⟨?_, hs.2⟩
    exact hs.1.imp (fun h => by rw [h]; rfl) id
  case searchTextStage =>
    refine YieldsTo.bind YieldsFrom.get fun _ => .ite (fun _ => YieldsTo.throw) fun _ => ?_
    exact YieldsTo.pure fun s hs => ⟨.inr (by simp [StageChecked]), hs.2⟩
  case searchParamStage =>
    refine YieldsTo.bind YieldsFrom.get fun _ => .ite (fun _ => YieldsTo.throw) fun _ => ?_
    refine YieldsTo.bind (valuesOf_atScope.pre fun _ h => h.2) fun terms => YieldsTo.pure fun s hs => ?_
    split
    · exact ⟨.inl rfl, hs.2⟩
    next hterms => exact ⟨.inr (by simpa [StageChecked] using hterms), hs.2⟩
  case projectStage =>
    refine YieldsTo.bind columns_checks fun cols => YieldsTo.intro_pre fun hcols => ?_
    exact YieldsTo.bind (YieldsTo.modify fun s _ => rfl) fun _ =>
      YieldsTo.pure fun s hs => ⟨.inr hcols.1, hs⟩
  case extendStage =>
    refine YieldsTo.bind columns_checks fun cols => YieldsTo.intro_pre fun hcols => ?_
    refine YieldsTo.bind (YieldsTo.modify (J := AtScope (Stage.scopeAfter scope (.extendStage cols)))
      fun s hs => ?_) fun _ => YieldsTo.pure fun s hs => ⟨.inr hcols.1, hs⟩
    unfold AtScope at hs ⊢
    rw [hs]
    rfl
  case summarizeStage _ _ aggs cols =>
    refine YieldsTo.bind columns_checks fun columnsBy => YieldsTo.intro_pre fun hby => ?_
    refine YieldsTo.bind YieldsFrom.get fun s => YieldsTo.intro_pre fun hs => ?_
    rw [show s.scope = scope from hs]
    refine YieldsTo.bind columns_checks fun aggregates => YieldsTo.intro_pre fun haggs => ?_
    refine YieldsTo.bind (checkAggregates_checks haggs.2) fun _ => YieldsTo.intro_pre fun hhas => ?_
    refine .ite (fun _ => YieldsTo.throw) fun hsome => ?_
    refine YieldsTo.bind (uniqueNames_checks List.nodup_nil) fun _ => YieldsTo.intro_pre fun hnames => ?_
    have hchecked : StageChecked env.lib before scope (.summarizeStage columnsBy aggregates) :=
      ⟨hby.1, haggs.1, hhas, by simpa using hsome, by simpa using hnames⟩
    exact YieldsTo.bind (YieldsTo.modify fun s _ => rfl) fun _ =>
      YieldsTo.pure fun s hs => ⟨.inr hchecked, hs⟩
  case sortStage =>
    refine YieldsTo.bind (YieldsFrom.mapM fun _ _ => sortKey_checks) fun keys => ?_
    exact YieldsTo.pure fun s hs => ⟨.inr hs.1, hs.2⟩
  case takeStage =>
    exact YieldsTo.bind rowCount_checks fun n => YieldsTo.pure fun s hs => ⟨.inr hs.1, hs.2⟩
  case topStage =>
    refine YieldsTo.bind rowCount_checks fun n => YieldsTo.intro_pre fun hn => ?_
    refine YieldsTo.bind sortKey_checks fun key => YieldsTo.pure fun s hs => ?_
    exact ⟨.inr ⟨hn, hs.1⟩, hs.2⟩
  case countStage =>
    exact YieldsTo.bind (YieldsTo.modify fun s _ => rfl) fun _ =>
      YieldsTo.pure fun s hs => ⟨.inr trivial, hs⟩
  case distinctStage =>
    refine YieldsTo.bind columns_checks fun cols => YieldsTo.intro_pre fun hcols => ?_
    exact YieldsTo.bind (YieldsTo.modify fun s _ => rfl) fun _ =>
      YieldsTo.pure fun s hs => ⟨.inr hcols.1, hs⟩

/-- A stage of the head keeps or drops Logs, and leaves the scope. -/
theorem headStage_checks {s : Syntax.Stage} (hs : isHead s = true) :
    YieldsFrom (AtScope .logScope) (stage env [] s) fun compiled =>
      filtersLogs compiled = true ∧
        (keepsAll compiled = true ∨ StageChecked env.lib [] .logScope compiled) := by
  have hfilters : Yields (stage env [] s) fun compiled => filtersLogs compiled = true := by
    cases s <;> simp only [stage]
    case whereStage => exact .seq fun _ => .pure rfl
    case searchTextStage => exact .seq fun _ => .ite (fun _ => .throw) fun _ => .pure rfl
    case searchParamStage =>
      refine .seq fun _ => .ite (fun _ => .throw) fun _ => .seq fun terms => .pure ?_
      split <;> rfl
    all_goals cases hs
  intro s₀ compiled s₁ hs₀ hrun
  obtain ⟨hchecked, hscope⟩ := stage_checks s s₀ compiled s₁ hs₀ hrun
  have hfilter := hfilters s₀ compiled s₁ hrun
  refine ⟨⟨hfilter, hchecked⟩, ?_⟩
  cases compiled <;> first | exact hscope | cases hfilter

/-- The stages of a head are filters over the Logs' scope. -/
theorem headStages_checks {stages : List Syntax.Stage} (hstages : ∀ s ∈ stages, isHead s = true) :
    YieldsFrom (AtScope .logScope) (headStages env stages) fun head =>
      ∀ s ∈ head, filtersLogs s = true ∧ StageChecked env.lib [] .logScope s := by
  induction stages with
  | nil => exact .pure nofun
  | cons s rest ih =>
    rw [List.forall_mem_cons] at hstages
    unfold headStages
    refine (headStage_checks hstages.1).bind fun compiled hcompiled => ?_
    refine (ih hstages.2).bind fun others hothers => .pure ?_
    split
    · exact hothers
    next hkept =>
      exact List.forall_mem_cons.2 ⟨⟨hcompiled.1, hcompiled.2.resolve_left hkept⟩, hothers⟩

/-- A stage that keeps all columns leaves the scope as it was. -/
theorem scopeAfter_of_keepsAll {s : Stage} (h : keepsAll s = true) : s.scopeAfter scope = scope := by
  cases s <;> first | cases h | rfl

/-- The stages of a tail are each checked over the scope that those before them leave. -/
theorem tailStages_checks {before : List Stage} {stages : List Syntax.Stage} :
    YieldsTo (AtScope scope) (tailStages env before stages) fun tail s =>
      ∃ rest, tail = before.reverse ++ rest ∧ TailChecked env.lib before scope rest ∧
        AtScope (scopeAfterAll scope rest) s := by
  induction stages generalizing before scope with
  | nil => exact YieldsTo.pure fun s hs => ⟨[], by simp, trivial, hs⟩
  | cons s rest ih =>
    unfold tailStages
    refine YieldsTo.bind (stage_checks s) fun compiled => YieldsTo.intro_pre fun hcompiled => ?_
    by_cases hkept : keepsAll compiled = true
    · rw [if_pos hkept, scopeAfter_of_keepsAll hkept]
      exact ih
    · rw [if_neg hkept]
      refine ih.mono fun tail s ⟨more, htail, hmore, hs⟩ => ⟨compiled :: more, ?_, ?_, hs⟩
      · simp [htail]
      · exact ⟨hcompiled.resolve_left hkept, hmore⟩

/-- The output is that of the last scope. -/
theorem output_checks : YieldsTo (AtScope scope) output fun columns _ =>
    ∃ names, columns = outputOf scope names := by
  unfold output
  refine YieldsTo.bind YieldsFrom.get fun s => YieldsTo.intro_pre fun hs => ?_
  have hscope : s.scope = scope := hs
  rw [hscope]
  refine .ite (fun hlogs => ?_) fun hlogs => ?_
  · refine YieldsTo.bind (YieldsFrom.forM fun _ _ => YieldsFrom.forM fun _ _ => read_atScope)
      fun _ => YieldsTo.pure fun _ _ => ⟨s.names, ?_⟩
    simp [outputOf, hlogs]
  · refine YieldsTo.pure fun _ _ => ⟨[], ?_⟩
    simp [outputOf, hlogs]

/-- What the compiler makes of a Query's tree. -/
theorem compileQuery_checked {tree : Syntax.Query} {q : Query} (h : compileQuery env tree = .ok q) :
    QueryChecked env.lib q := by
  have hchecks : YieldsTo (AtScope .logScope) (compileTree env tree) fun q _ =>
      QueryChecked env.lib q := by
    unfold compileTree
    refine YieldsTo.bind (headStages_checks fun s hs => ?_) fun head =>
      YieldsTo.intro_pre fun hhead => ?_
    · exact List.all_eq_true.1 List.all_takeWhile s hs
    refine YieldsTo.bind (YieldsTo.modify (J := AtScope .logScope) fun s hs => hs) fun _ => ?_
    refine YieldsTo.bind tailStages_checks fun tail => ?_
    have hfinish : ∀ columns,
        TailChecked env.lib [] .logScope tail →
        (tail.any makesTable = true → ∃ names, columns = outputOf (scopeAfterAll .logScope tail) names) →
        (tail.any makesTable = false → columns = []) →
        ∀ s : CompilerState, QueryChecked env.lib {
          head, tail
          fromTime := (narrow head (env.bounds.fromTime, env.bounds.toTime)).1
          toTime := (narrow head (env.bounds.fromTime, env.bounds.toTime)).2
          parameters := s.parameters
          table := tail.any makesTable
          take := takeOf tail
          reads := if tail.any makesTable then s.readOrder else []
          output := columns
          shape := if tail.any makesTable then shapeOf tail columns else ⟨fun _ => none, false⟩ } := by
      intro columns htail hcolumns hnone s
      exact ⟨hhead, htail, rfl, rfl, hcolumns, hnone, fun htable => if_pos htable⟩
    refine .ite (fun htable => ?_) fun htable => ?_
    · have hcolumns : YieldsTo (fun s => ∃ rest, tail = [].reverse ++ rest ∧
          TailChecked env.lib [] .logScope rest ∧ AtScope (scopeAfterAll .logScope rest) s) output
          fun columns _ => TailChecked env.lib [] .logScope tail ∧
            ∃ names, columns = outputOf (scopeAfterAll .logScope tail) names := by
        intro s columns s' ⟨rest, hrest, hchecked, hs⟩ hrun
        simp only [List.reverse_nil, List.nil_append] at hrest
        subst hrest
        exact ⟨hchecked, output_checks s columns s' hs hrun⟩
      refine YieldsTo.bind hcolumns fun columns => YieldsTo.bind YieldsTo.get fun s => ?_
      refine YieldsTo.pure fun _ hs => hfinish columns hs.2.1 (fun _ => hs.2.2) (fun hlogs => ?_) s
      rw [htable] at hlogs
      cases hlogs
    · have htail : ∀ s : CompilerState, (∃ rest, tail = [].reverse ++ rest ∧
          TailChecked env.lib [] .logScope rest ∧ AtScope (scopeAfterAll .logScope rest) s) →
          TailChecked env.lib [] .logScope tail := by
        intro s ⟨rest, hrest, hchecked, _⟩
        simp only [List.reverse_nil, List.nil_append] at hrest
        rw [hrest]
        exact hchecked
      refine YieldsTo.bind (YieldsTo.pure (P := fun columns _ =>
        TailChecked env.lib [] .logScope tail ∧ columns = []) fun s hs => ⟨htail s hs, rfl⟩)
        fun columns => YieldsTo.bind YieldsTo.get fun s => ?_
      exact YieldsTo.pure fun _ hs =>
        hfinish columns hs.2.1 (fun h => absurd h htable) (fun _ => hs.2.2) s
  obtain ⟨_, hq⟩ := hchecks.run' (show AtScope .logScope ⟨[], .logScope, false, [], []⟩ from rfl) h
  exact hq

end Stages

end SolidTrace.LogQuery
