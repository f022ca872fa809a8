import SolidTrace.Lib.Relates
import SolidTrace.LogQuery.Moved
import SolidTrace.LogQuery.Stages

/-!
# What compiling reads of the compiler's state

Compiling an expression reads the scope of the stage, and notes the Attributes it reads and names. What
it makes, and whether it fails, depends on nothing else of the state, nor on where in the text the
expression is: only mistakes are told of places.
-/

namespace SolidTrace.LogQuery

/-- A relation of states that have the same scope, and stay related as Attributes are noted. -/
structure Untold (R : CompilerState → CompilerState → Prop) : Prop where
  scope : ∀ s t, R s t → s.scope = t.scope
  read : ∀ t key, Respects R (read t key)
  named : ∀ key, Respects R (named key)

/-- Both states are at a stage of rows of a scope. -/
def AtScopes (scope : Scope) (s t : CompilerState) : Prop := s.scope = scope ∧ t.scope = scope

/-- Having the same scopes says nothing of what is noted. -/
theorem atScopes_untold (scope : Scope) : Untold (AtScopes scope) where
  scope s t h := h.1.trans h.2.symm
  read t key := by
    refine Respects.modify fun s t h => ?_
    unfold AtScopes
    split <;> split <;> exact h
  named key := by
    refine Respects.modify fun s t h => ?_
    unfold AtScopes
    split <;> split <;> exact h

section Expressions

variable {R : CompilerState → CompilerState → Prop} {env : Env} {text : String}

/-- Two errors are related, wherever they point and whatever they say. -/
theorem errorAt_relates {α β : Type} {S : α → β → Prop} {span span' : Span} {message message' : String} :
    Relates R S (errorAt span message : Compiler α) (errorAt span' message') := Relates.throw

/-- An error reads nothing of the state. -/
theorem errorAt_respects {α : Type} {span : Span} {message : String} :
    Respects R (errorAt span message : Compiler α) := errorAt_relates

/-- However an expression is asked for, two ways to compile it make the same of it, each with its own
text to tell its mistakes of. -/
def CompilesAs (R : CompilerState → CompilerState → Prop) (c c' : Compile) : Prop :=
  ∀ env text want agg, Relates R Eq (c env want agg) (c' { env with text := text } want agg)

/-- However an expression is asked for, what compiles it reads no more than its scope. -/
def CompilesAlike (R : CompilerState → CompilerState → Prop) (c : Compile) : Prop :=
  ∀ env want agg, Respects R (c env want agg)

/-- A name is compiled as it is at another place. -/
theorem name_as (hR : Untold R) (id : Syntax.Ident) (f : Span → Span) :
    CompilesAs R (name id) (name (id.mapSpans f)) := by
  obtain ⟨written, span, quoted⟩ := id
  change CompilesAs R (name ⟨written, span, quoted⟩) (name ⟨written, f span, quoted⟩)
  intro env text want agg
  unfold name
  refine Relates.bind Relates.get fun s t hst => ?_
  rw [hR.scope s t hst]
  generalize (if quoted = true then written else (fieldAliases written).getD written) = field
  simp only
  cases t.scope.lookup field with
  | some col => exact Relates.ite_same (fun _ => Relates.pure rfl) fun _ => Relates.pure rfl
  | none =>
    refine Relates.ite_same (fun _ => errorAt_relates) fun _ => ?_
    cases builtInFields field with
    | some t => exact Relates.pure rfl
    | none =>
      refine Relates.bind_eq (hR.named _) fun _ => ?_
      cases want.attributeType with
      | some t => exact Relates.bind_eq (hR.read _ _) fun _ => Relates.pure rfl
      | none =>
        exact Relates.bind_eq (Respects.forM fun t => hR.read t _) fun _ => Relates.pure rfl

/-- A misplaced parameter is an error at any place. -/
theorem misplaced_relates {α β : Type} {S : α → β → Prop} {env env' : Env} {p p' : Syntax.Param} :
    Relates R S (misplaced env p : Compiler α) (misplaced env' p') := by
  unfold misplaced
  split <;> split <;> exact errorAt_relates

/-- A number is compiled as it is at another place. -/
theorem numberLiteral_relates (lit : Syntax.BasicLit) (f : Span → Span) (negative : Bool) :
    Relates R Eq (numberLiteral env lit negative)
      (numberLiteral { env with text := text } (lit.mapSpans f) negative) := by
  simp only [numberLiteral, Syntax.BasicLit.mapSpans]
  cases env.lib.parseFloat lit.value with
  | none => exact errorAt_relates
  | some n => exact Relates.pure rfl

/-- A literal is compiled as it is at another place. -/
theorem literal_relates (lit : Syntax.BasicLit) (f : Span → Span) :
    Relates R Eq (literal env lit) (literal { env with text := text } (lit.mapSpans f)) := by
  obtain ⟨span, kind, value⟩ := lit
  cases kind with
  | string => exact Relates.pure rfl
  | bool => exact Relates.pure rfl
  | timespan =>
    simp only [literal, Syntax.BasicLit.mapSpans]
    cases parseTimespan env.lib value with
    | error message => exact errorAt_relates
    | ok d => exact Relates.pure rfl
  | dateTime =>
    simp only [literal, Syntax.BasicLit.mapSpans]
    cases env.lib.parseDateTime value with
    | none => exact errorAt_relates
    | some t => exact Relates.pure rfl
  | number => exact numberLiteral_relates _ f false

variable {cx cx' cy cy' : Compile} {agg : Option RateBasis}

/-- A condition is compiled as it is at another place. -/
theorem condition_relates {span span' : Span} (h : CompilesAs R cx cx') :
    Relates R Eq (condition cx span env) (condition cx' span' { env with text := text }) :=
  Relates.bind_eq (h _ _ _ _) fun _ => Relates.ite_same (fun _ => errorAt_relates) fun _ => Relates.pure rfl

/-- A number is one at any place. -/
theorem numberLit_mapSpans (e : Syntax.Expr) (f : Span → Span) :
    numberLit? (e.mapSpans f) = (numberLit? e).map (·.mapSpans f) := by
  cases e with
  | basicLit lit =>
    simp only [Syntax.Expr.mapSpans, numberLit?, Syntax.BasicLit.mapSpans]
    split <;> rfl
  | _ => rfl

/-- A sign or a negation is compiled as it is at another place. -/
theorem unary_as {span span' : Span} {op : Syntax.Sign} {e : Syntax.Expr} (f : Span → Span)
    (h : CompilesAs R cx cx') : CompilesAs R (unary span op e cx) (unary span' op (e.mapSpans f) cx') := by
  intro env text want agg
  unfold unary
  rw [numberLit_mapSpans]
  cases numberLit? e with
  | some lit => exact Relates.bind_eq (numberLiteral_relates lit f _) fun _ => Relates.pure rfl
  | none =>
    refine Relates.bind_eq (h _ _ _ _) fun x => ?_
    have htyped : ∀ x : Expr, ∀ y z : Compiler Expr, Relates R Eq y z →
        Relates R Eq (if x.typ != .number && x.typ != .timespan then y else
          if op == .plus then pure x else pure (.negative x) : Compiler Expr)
        (if x.typ != .number && x.typ != .timespan then z else
          if op == .plus then pure x else pure (.negative x)) := fun x y z h =>
      Relates.ite_same (fun _ => h) fun _ =>
        Relates.ite_same (fun _ => Relates.pure rfl) fun _ => Relates.pure rfl
    cases x with
    | literal l =>
      cases l with
      | timespan d => cases op <;> exact Relates.pure rfl
      | _ => exact htyped _ _ _ errorAt_relates
    | _ => exact htyped _ _ _ errorAt_relates

/-- A pattern is checked as it is at another place. -/
theorem checkRegex_relates {span span' : Span} {pattern : String} :
    Relates R Eq (checkRegex env span pattern) (checkRegex { env with text := text } span' pattern) := by
  simp only [checkRegex]
  cases env.lib.regexError pattern with
  | some message => exact errorAt_relates
  | none => exact Relates.pure rfl

/-- The operand of a text test is compiled as it is at another place. -/
theorem textOperand_relates (hR : Untold R) {span span' opSpan opSpan' : Span} {op : TextOp}
    (h : CompilesAs R cx cx') : Relates R Eq (textOperand span opSpan op cx env agg)
      (textOperand span' opSpan' op cx' { env with text := text } agg) := by
  refine Relates.bind_eq (h _ _ _ _) fun x => Relates.ite_same (fun _ => errorAt_relates) fun _ => ?_
  cases x with
  | fieldRef name builtIn t =>
    cases builtIn with
    | false =>
      exact Relates.ite_same (fun _ => Relates.bind_eq (hR.read _ _) fun _ => Relates.pure rfl)
        fun _ => Relates.pure rfl
    | true => exact Relates.pure rfl
  | partOf part t => exact Relates.ite_same (fun _ => Relates.pure rfl) fun _ => Relates.pure rfl
  | _ => exact Relates.pure rfl

/-- A text test is compiled as it is at another place. -/
theorem textTest_as (hR : Untold R) {x : Syntax.Expr} (y : Syntax.Expr) {opSpan opSpan' : Span} {op : TextOp}
    (f : Span → Span) (h : CompilesAs R cx cx') :
    CompilesAs R (textTest x opSpan op y cx) (textTest (x.mapSpans f) opSpan' op (y.mapSpans f) cx') := by
  intro env text want agg
  refine Relates.bind_eq (textOperand_relates hR h) fun operand => ?_
  cases y with
  | param p => exact misplaced_relates
  | basicLit lit =>
    obtain ⟨span, kind, value⟩ := lit
    cases kind with
    | string =>
      exact Relates.ite_same (fun _ => Relates.bind_eq checkRegex_relates fun _ => Relates.pure rfl)
        fun _ => Relates.pure rfl
    | _ => exact errorAt_relates
  | _ => exact errorAt_relates

/-- A name is one at any place. -/
theorem isIdent_mapSpans (x : Syntax.Expr) (f : Span → Span) : isIdent (x.mapSpans f) = isIdent x := by
  cases x <;> rfl

/-- A comparison is compiled as it is at another place. -/
theorem compare_as (hR : Untold R) {span span' : Span} {x y : Syntax.Expr} {op : CompareOp}
    (f : Span → Span) (hx : CompilesAs R cx cx') (hy : CompilesAs R cy cy') :
    CompilesAs R (compare span x op y cx cy) (compare span' (x.mapSpans f) op (y.mapSpans f) cx' cy') := by
  intro env text want agg
  unfold compare
  rw [isIdent_mapSpans, isIdent_mapSpans]
  refine Relates.bind_eq (hy _ _ _ _) fun y₀ => Relates.bind_eq (hx _ _ _ _) fun x' => ?_
  refine Relates.ite_same (fun _ => Relates.bind_eq (hy _ _ _ _) fun y' => ?_) fun _ => ?_
  all_goals
    refine Relates.ite_same (fun _ => Relates.bind Relates.get fun s t hst => ?_) fun _ =>
      Relates.ite_same (fun _ => errorAt_relates) fun _ =>
        Relates.ite_same (fun _ => errorAt_relates) fun _ => Relates.pure rfl
    rw [hR.scope s t hst]
    exact Relates.ite_same (fun _ => errorAt_relates) fun _ => errorAt_relates

/-- Arithmetic is compiled as it is at another place. -/
theorem arith_as {span span' : Span} {op : ArithOp} (hx : CompilesAs R cx cx') (hy : CompilesAs R cy cy') :
    CompilesAs R (arith span op cx cy) (arith span' op cx' cy') := by
  intro env text want agg
  refine Relates.bind_eq (hx _ _ _ _) fun x => Relates.bind_eq (hy _ _ _ _) fun y => ?_
  refine Relates.ite_same (fun _ => Relates.pure rfl) fun _ => Relates.ite_same (fun _ => ?_) fun _ =>
    Relates.ite_same (fun _ => Relates.pure rfl) fun _ => errorAt_relates
  split <;> exact Relates.pure rfl

/-- Arguments at other places, each compiled alike. -/
abbrev ArgsAs (R : CompilerState → CompilerState → Prop) : List Arg → List Arg → Prop :=
  List.Forall₂ fun a b => CompilesAs R a.2 b.2

/-- An element of an in is compiled as it is at another place. -/
theorem inElem_relates {span span' : Span} {so : Option Expr} (hx : CompilesAs R cx cx')
    (hy : CompilesAs R cy cy') : Relates R Eq (inElem cx span cy env agg so)
      (inElem cx' span' cy' { env with text := text } agg so) := by
  refine Relates.bind_eq (hy _ _ _ _) fun value => ?_
  cases value with
  | literal l =>
    refine Relates.bind_eq (hx _ _ _ _) fun x => ?_
    cases so <;> exact Relates.pure rfl
  | _ => exact errorAt_relates

/-- More elements of an in are compiled as they are at another place. -/
theorem inElems_relates (hx : CompilesAs R cx cx') {rest rest' : List (Span × Compile)}
    (hrest : ArgsAs R rest rest') (m : Expr) :
    Relates R Eq (inElems cx env agg m rest) (inElems cx' { env with text := text } agg m rest') := by
  induction hrest generalizing m with
  | nil => exact Relates.pure rfl
  | cons hfirst _ ih => exact Relates.bind_eq (inElem_relates hx hfirst) fun m => ih m

/-- An in is compiled as it is at another place. -/
theorem inList_as {negated : Bool} {first first' : Span × Compile} {rest rest' : List (Span × Compile)}
    (hx : CompilesAs R cx cx') (hfirst : CompilesAs R first.2 first'.2) (hrest : ArgsAs R rest rest') :
    CompilesAs R (inList negated cx first rest) (inList negated cx' first' rest') := fun _ _ _ _ =>
  Relates.bind_eq (inElem_relates hx hfirst) fun m =>
    Relates.bind_eq (inElems_relates hx hrest m) fun _ => Relates.pure rfl

/-- A binary operation is compiled as it is at another place. -/
theorem binary_as (hR : Untold R) (x y : Syntax.Expr) {opSpan opSpan' : Span} {op : Syntax.BinaryOp}
    (f : Span → Span) (hx : CompilesAs R cx cx') (hy : CompilesAs R cy cy') :
    CompilesAs R (binary x opSpan op y cx cy) (binary (x.mapSpans f) opSpan' op (y.mapSpans f) cx' cy') := by
  intro env text want agg
  have hboth : ∀ both : Expr → Expr → Expr, ∀ span span' tspan tspan', Relates R Eq
      (do return both (← condition cx span env) (← condition cy tspan env) : Compiler Expr)
      (do
        let x ← condition cx' span' { env with text := text }
        return both x (← condition cy' tspan' { env with text := text })) := fun both _ _ _ _ =>
    Relates.bind_eq (condition_relates hx) fun _ =>
      Relates.bind_eq (condition_relates hy) fun _ => Relates.pure rfl
  unfold binary
  simp only
  split
  · exact hboth .and _ _ _ _
  · exact hboth .or _ _ _ _
  · cases arithOp? op with
    | some op => exact arith_as hx hy _ _ _ _
    | none =>
      cases compareOp? op with
      | some op => exact compare_as hR f hx hy _ _ _ _
      | none =>
        cases textOp? op with
        | some op => exact textTest_as hR y f hx _ _ _ _
        | none => exact errorAt_relates

/-- A step of a path is compiled as it is at another place. -/
theorem pathStep_relates {span span' : Span} (h : CompilesAs R cx cx') :
    Relates R Eq (pathStep span cx env) (pathStep span' cx' { env with text := text }) := by
  refine Relates.bind_eq (h _ _ _ _) fun x => ?_
  cases x with
  | literal l =>
    cases l with
    | string s => exact Relates.pure rfl
    | number n => exact Relates.ite_same (fun _ => Relates.pure rfl) fun _ => errorAt_relates
    | _ => exact errorAt_relates
  | _ => exact errorAt_relates

/-- A member is compiled as it is at another place. -/
theorem reach_as {accessor accessor' : Span} {step step' : Env → Compiler PathStep}
    (h : CompilesAs R cx cx')
    (hstep : ∀ env text, Relates R Eq (step env) (step' { env with text := text })) :
    CompilesAs R (reach accessor cx step) (reach accessor' cx' step') := by
  intro env text want agg
  refine Relates.bind_eq (h _ _ _ _) fun x => Relates.ite_same (fun _ => errorAt_relates) fun _ => ?_
  refine Relates.bind_eq (hstep _ _) fun step => ?_
  cases x <;> exact Relates.pure rfl

end Expressions

section Calls

variable {R : CompilerState → CompilerState → Prop} {env : Env} {text : String} {agg : Option RateBasis}
  {span span' : Span}

/-- A timespan is compiled as it is at another place. -/
theorem timespan_relates {arg arg' : Arg} (h : CompilesAs R arg.2 arg'.2) :
    Relates R Eq (timespan arg env) (timespan arg' { env with text := text }) := by
  refine Relates.bind_eq (h _ _ _ _) fun x => ?_
  cases x with
  | literal l =>
    cases l with
    | timespan d => exact Relates.pure rfl
    | _ => exact errorAt_relates
  | _ => exact errorAt_relates

/-- The argument of a numeric aggregate is compiled as it is at another place. -/
theorem numberArg_relates {fn : AggregateFunction} {arg arg' : Arg} (h : CompilesAs R arg.2 arg'.2) :
    Relates R Eq (numberArg fn arg env) (numberArg fn arg' { env with text := text }) :=
  Relates.bind_eq (h _ _ _ _) fun _ =>
    Relates.ite_same (fun _ => errorAt_relates) fun _ => Relates.pure rfl

/-- The arguments of a rate are counted as they are at another place. -/
theorem rateArgs_relates {fn : AggregateFunction} {args args' : List Arg} (h : ArgsAs R args args') :
    Relates R Eq (rateArgs span fn args) (rateArgs span' fn args') := by
  cases h with
  | nil => exact Relates.pure rfl
  | cons _ _ => exact errorAt_relates

/-- The argument of min or max is compiled as it is at another place. -/
theorem extremeArg_relates {fn : AggregateFunction} {arg arg' : Arg} (h : CompilesAs R arg.2 arg'.2) :
    Relates R Eq (extremeArg fn arg env) (extremeArg fn arg' { env with text := text }) := by
  refine Relates.bind_eq (h _ _ _ _) fun x₀ => ?_
  refine Relates.ite_same (fun _ => Relates.bind_eq (numberArg_relates h) fun x => ?_) fun _ => ?_
  all_goals exact Relates.ite_same (fun _ => errorAt_relates) fun _ => Relates.pure rfl

/-- A percentile is compiled as it is at another place. -/
theorem percentArg_relates {arg arg' : Arg} (h : CompilesAs R arg.2 arg'.2) :
    Relates R Eq (percentArg arg env) (percentArg arg' { env with text := text }) := by
  refine Relates.bind_eq (h _ _ _ _) fun x => ?_
  cases x with
  | literal l =>
    cases l with
    | number n => exact Relates.ite_same (fun _ => errorAt_relates) fun _ => Relates.pure rfl
    | _ => exact errorAt_relates
  | _ => exact errorAt_relates

/-- An aggregate is compiled as it is at another place. -/
theorem aggregate_relates {fn : AggregateFunction} {args args' : List Arg} {basis : RateBasis}
    (h : ArgsAs R args args') : Relates R Eq (aggregate span fn args basis env)
      (aggregate span' fn args' basis { env with text := text }) := by
  cases fn with
  | rate =>
    refine Relates.bind_eq (rateArgs_relates h) fun _ => ?_
    exact Relates.ite_same (fun _ => errorAt_relates) fun _ => Relates.pure rfl
  | peakRate =>
    refine Relates.bind_eq (rateArgs_relates h) fun _ => Relates.ite_same (fun _ => errorAt_relates) fun _ => ?_
    exact Relates.ite_same (fun _ => errorAt_relates) fun _ => Relates.pure rfl
  | count =>
    cases h with
    | nil => exact Relates.pure rfl
    | cons _ _ => exact errorAt_relates
  | countif =>
    cases h with
    | nil => exact errorAt_relates
    | cons hx h =>
      cases h with
      | nil => exact Relates.bind_eq (condition_relates hx) fun _ => Relates.pure rfl
      | cons _ _ => exact errorAt_relates
  | percentile =>
    cases h with
    | nil => exact errorAt_relates
    | cons hx h =>
      cases h with
      | nil => exact errorAt_relates
      | cons hpercent h =>
        cases h with
        | nil =>
          exact Relates.bind_eq (numberArg_relates hx) fun _ =>
            Relates.bind_eq (percentArg_relates hpercent) fun _ => Relates.pure rfl
        | cons _ _ => exact errorAt_relates
  | dcount =>
    cases h with
    | nil => exact errorAt_relates
    | cons hx h =>
      cases h with
      | nil => exact Relates.bind_eq (hx _ _ _ _) fun _ => Relates.pure rfl
      | cons _ _ => exact errorAt_relates
  | _ =>
    cases h with
    | nil => exact errorAt_relates
    | cons hx h =>
      cases h with
      | nil =>
        first
          | exact extremeArg_relates hx
          | exact Relates.bind_eq (numberArg_relates hx) fun _ => Relates.pure rfl
      | cons _ _ => exact errorAt_relates

/-- Arguments of the same values, at other places. -/
abbrev SameArgs : List (Expr × Span) → List (Expr × Span) → Prop := List.Forall₂ fun a b => a.1 = b.1

/-- A type that is needed is needed at any place. -/
theorem needs_relates {name : String} {t : ValueType} {arg arg' : Expr × Span} {what : String}
    (h : arg.1 = arg'.1) : Relates R Eq (needs name t arg what) (needs name t arg' what) := by
  unfold needs
  rw [h]
  exact Relates.ite_same (fun _ => errorAt_relates) fun _ => Relates.pure rfl

/-- An extract is checked as it is at another place. -/
theorem extractCall_relates {name : String} {regex regex' : Expr × Span} {rest rest' : List (Expr × Span)}
    (hregex : regex.1 = regex'.1) (hrest : SameArgs rest rest') :
    Relates R Eq (checkCall env name span (some .extract) (regex :: rest))
      (checkCall { env with text := text } name span' (some .extract) (regex' :: rest')) := by
  cases hrest with
  | nil => exact Relates.pure rfl
  | @cons group group' _ _ hgroup hrest =>
    cases hrest with
    | nil => exact Relates.pure rfl
    | @cons x x' _ _ hx hrest =>
      cases hrest with
      | cons _ _ => exact Relates.pure rfl
      | nil =>
        obtain ⟨pattern, place⟩ := regex
        obtain ⟨pattern', place'⟩ := regex'
        obtain ⟨group, groupPlace⟩ := group
        obtain ⟨group', groupPlace'⟩ := group'
        obtain rfl : pattern = pattern' := hregex
        obtain rfl : group = group' := hgroup
        have hrest : Relates R Eq
            (do
              if !isGroup group then
                errorAt groupPlace
                  "extract needs its capture group written in the Query, as a whole number of 0 or more"
              needs name .string x "takes a string" : Compiler Unit)
            (do
              if !isGroup group then
                errorAt groupPlace'
                  "extract needs its capture group written in the Query, as a whole number of 0 or more"
              needs name .string x' "takes a string") :=
          Relates.ite_same (fun _ => Relates.bind_eq errorAt_relates fun _ => needs_relates hx)
            fun _ => needs_relates hx
        cases pattern with
        | literal l =>
          cases l with
          | string pattern => exact Relates.bind_eq checkRegex_relates fun _ => hrest
          | _ => exact Relates.bind_eq errorAt_relates fun _ => hrest
        | _ => exact Relates.bind_eq errorAt_relates fun _ => hrest

/-- A call is checked as it is at another place. -/
theorem checkCall_relates {name : String} {fn : Option ScalarFunction} {args args' : List (Expr × Span)}
    (h : SameArgs args args') :
    Relates R Eq (checkCall env name span fn args)
      (checkCall { env with text := text } name span' fn args') := by
  have hbin : ∀ x size x' size' : Expr × Span, x.1 = x'.1 → size.1 = size'.1 →
      Relates R Eq (checkCall.binArgs name span x size) (checkCall.binArgs name span' x' size') := by
    intro x size x' size' hx hsize
    unfold checkCall.binArgs
    rw [hx, hsize]
    exact Relates.ite_same (fun _ => errorAt_relates) fun _ =>
      Relates.ite_same (fun _ => errorAt_relates) fun _ => Relates.pure rfl
  cases h with
  | nil =>
    cases fn with
    | none => exact Relates.pure rfl
    | some fn => cases fn <;> exact Relates.pure rfl
  | cons hx hrest =>
    cases fn with
    | none => exact needs_relates hx
    | some fn =>
      cases fn with
      | tolower | toupper | strlen | arrayLength => exact needs_relates hx
      | bin | floor =>
        cases hrest with
        | nil => exact Relates.pure rfl
        | cons hsize hrest =>
          cases hrest with
          | nil => exact hbin _ _ _ _ hx hsize
          | cons _ _ => exact Relates.pure rfl
      | extract => exact extractCall_relates hx hrest
      | substring =>
        refine Relates.bind_eq (needs_relates hx) fun _ => ?_
        cases hrest with
        | nil => exact Relates.pure rfl
        | cons hstart hrest =>
          cases hrest with
          | nil => exact needs_relates hstart
          | cons hlength hrest =>
            cases hrest with
            | nil => exact Relates.bind_eq (needs_relates hstart) fun _ => needs_relates hlength
            | cons _ _ => exact Relates.pure rfl
      | round =>
        refine Relates.bind_eq (needs_relates hx) fun _ => ?_
        cases hrest with
        | nil => exact Relates.pure rfl
        | cons hprecision hrest =>
          cases hrest with
          | nil => exact needs_relates hprecision
          | cons _ _ => exact Relates.pure rfl
      | _ => exact Relates.pure rfl

/-- The arguments of a function are compiled as they are at another place. -/
theorem scalarArgs_relates (types : List ValueType) {args args' : List Arg} (h : ArgsAs R args args') :
    Relates R SameArgs (scalarArgs env agg types args)
      (scalarArgs { env with text := text } agg types args') := by
  induction types generalizing args args' with
  | nil => exact Relates.pure .nil
  | cons t ts ih =>
    cases h with
    | nil => exact Relates.pure .nil
    | cons hx hrest =>
      exact Relates.bind_eq (hx _ _ _ _) fun x =>
        Relates.bind (ih hrest) fun _ _ hargs => Relates.pure (.cons rfl hargs)

/-- A scalar function is compiled as it is at another place. -/
theorem scalar_relates {name : String} {f : Function} {args args' : List Arg} (h : ArgsAs R args args') :
    Relates R Eq (scalar name span f args env agg)
      (scalar name span' f args' { env with text := text } agg) := by
  unfold scalar
  rw [h.length_eq]
  refine Relates.ite_same (fun _ => ?_) fun _ => Relates.bind (scalarArgs_relates _ h) fun args args' hargs =>
    Relates.bind_eq (checkCall_relates hargs) fun _ => ?_
  · cases f.usage <;> exact errorAt_relates
  · have hvalues : args.map Prod.fst = args'.map Prod.fst := by
      rw [← List.forall₂_eq_eq_eq, List.forall₂_map_left_iff, List.forall₂_map_right_iff]
      exact hargs
    cases f.fn with
    | some fn =>
      simp only [hvalues]
      exact Relates.pure rfl
    | none =>
      cases hargs with
      | nil => exact errorAt_relates
      | cons hx _ => exact Relates.pure (by rw [hx])

/-- A test of emptiness is compiled as it is at another place. -/
theorem emptyTest_relates {name : String} {negated : Bool} {args args' : List Arg} (h : ArgsAs R args args') :
    Relates R Eq (emptyTest name span negated args env agg)
      (emptyTest name span' negated args' { env with text := text } agg) := by
  cases h with
  | nil => exact errorAt_relates
  | cons hx h =>
    cases h with
    | nil => exact Relates.bind_eq (hx _ _ _ _) fun _ => Relates.pure rfl
    | cons _ _ => exact errorAt_relates

/-- A bin that chooses its size is compiled as it is at another place. -/
theorem binAuto_relates {args args' : List Arg} (h : ArgsAs R args args') :
    Relates R Eq (binAuto span args env agg) (binAuto span' args' { env with text := text } agg) := by
  cases h with
  | nil => exact errorAt_relates
  | cons hx h =>
    cases h with
    | nil =>
      exact Relates.bind_eq (hx _ _ _ _) fun _ =>
        Relates.ite_same (fun _ => errorAt_relates) fun _ => Relates.pure rfl
    | cons _ _ => exact errorAt_relates

/-- What a call of no function of the language's own gives. -/
def namedCall (span : Span) (func : Syntax.Ident) (args : List Arg) (env : Env) (agg : Option RateBasis) :
    Compiler Expr :=
  match emptyTests func.name, aggregateFunctions func.name, scalarFunctions func.name with
  | some negated, _, _ => emptyTest func.name span negated args env agg
  | _, some fn, _ =>
    match agg with
    | none => errorAt func.span s!"{func.name}() only works in summarize"
    | some basis => aggregate span fn args basis env
  | _, _, some f => scalar func.name span f args env agg
  | _, _, _ => errorAt func.span s!"unknown function {env.lib.quote func.name}"

/-- A call of a function that is none of the four special ones. -/
theorem callOf_named {func : Syntax.Ident} (hname : func.name ∉ ["not", "now", "ago", "bin_auto"])
    (span : Span) (args : List Arg) (env : Env) (agg : Option RateBasis) :
    callOf span func args env agg = namedCall span func args env agg := by
  obtain ⟨name, place, quoted⟩ := func
  unfold callOf
  split
  case h_8 => rfl
  all_goals simp_all

/-- A call by name is compiled as it is at another place. -/
theorem namedCall_relates {func : Syntax.Ident} (f : Span → Span) {args args' : List Arg}
    (h : ArgsAs R args args') : Relates R Eq (namedCall span func args env agg)
      (namedCall span' (func.mapSpans f) args' { env with text := text } agg) := by
  simp only [namedCall, Syntax.Ident.mapSpans]
  cases emptyTests func.name with
  | some negated => exact emptyTest_relates h
  | none =>
    cases aggregateFunctions func.name with
    | some fn =>
      cases agg with
      | none => exact errorAt_relates
      | some basis => exact aggregate_relates h
    | none =>
      cases scalarFunctions func.name with
      | some f => exact scalar_relates h
      | none => exact errorAt_relates

/-- A call, whatever its function, is compiled as it is at another place. -/
theorem callOf_relates {func : Syntax.Ident} (f : Span → Span) {args args' : List Arg} (h : ArgsAs R args args') :
    Relates R Eq (callOf span func args env agg)
      (callOf span' (func.mapSpans f) args' { env with text := text } agg) := by
  by_cases hname : func.name ∈ ["not", "now", "ago", "bin_auto"]
  · obtain ⟨name, place, quoted⟩ := func
    simp only [List.mem_cons, List.not_mem_nil, or_false] at hname
    rcases hname with rfl | rfl | rfl | rfl
    · cases h with
      | nil => exact errorAt_relates
      | cons hx h =>
        cases h with
        | nil => exact Relates.bind_eq (condition_relates hx) fun _ => Relates.pure rfl
        | cons _ _ => exact errorAt_relates
    · cases h with
      | nil => exact Relates.pure rfl
      | cons _ _ => exact errorAt_relates
    · cases h with
      | nil => exact errorAt_relates
      | cons hx h =>
        cases h with
        | nil => exact Relates.bind_eq (timespan_relates hx) fun _ => Relates.pure rfl
        | cons _ _ => exact errorAt_relates
    · exact binAuto_relates h
  · rw [callOf_named hname, callOf_named (by exact hname)]
    exact namedCall_relates f h

/-- A call, with what it says of itself, is compiled as it is at another place. -/
theorem call_as {func : Syntax.Ident} (f : Span → Span) {args args' : List Arg} (h : ArgsAs R args args') :
    CompilesAs R (call span func args) (call span' (func.mapSpans f) args') := fun _ _ _ _ =>
  Relates.bind_eq (callOf_relates f h) fun _ => Relates.pure rfl

mutual

/-- Compiling an expression reads no more of the state than the scope, and makes the same of it wherever
it is. -/
theorem expr_as (hR : Untold R) (f : Span → Span) :
    ∀ e : Syntax.Expr, CompilesAs R (expr e) (expr (e.mapSpans f))
  | .ident id => name_as hR id f
  | .param _ => fun _ _ _ _ => misplaced_relates
  | .basicLit lit => fun _ _ _ _ => Relates.bind_eq (literal_relates lit f) fun _ => Relates.pure rfl
  | .binary x _ _ y => binary_as hR x y f (expr_as hR f x) (expr_as hR f y)
  | .inList x _ _ _ first rest _ =>
    inList_as (expr_as hR f x) (expr_as hR f first) (exprs_as hR f rest)
  | .unary _ _ x => unary_as f (expr_as hR f x)
  | .paren _ x _ => expr_as hR f x
  | .call _ _ args _ => call_as f (exprs_as hR f args)
  | .member x _ _ => reach_as (expr_as hR f x) fun _ _ => Relates.pure rfl
  | .index x _ i _ => reach_as (expr_as hR f x) fun _ _ => pathStep_relates (expr_as hR f i)

/-- Each of some expressions is compiled as it is at another place. -/
theorem exprs_as (hR : Untold R) (f : Span → Span) :
    ∀ es : List Syntax.Expr, ArgsAs R (exprs es) (exprs (Syntax.Expr.mapSpansAll f es))
  | [] => .nil
  | x :: rest => .cons (expr_as hR f x) (exprs_as hR f rest)

end

end Calls

section Alone

variable {R : CompilerState → CompilerState → Prop} {env : Env} {agg : Option RateBasis} {cx : Compile}

/-- A number reads nothing of what is noted. -/
theorem numberLiteral_respects {lit : Syntax.BasicLit} {negative : Bool} :
    Respects R (numberLiteral env lit negative) := numberLiteral_relates lit id negative

/-- A literal reads nothing of what is noted. -/
theorem literal_respects {lit : Syntax.BasicLit} : Respects R (literal env lit) := literal_relates lit id

/-- A condition reads nothing of what is noted, where its expression does not. -/
theorem condition_respects {span : Span} (h : CompilesAlike R cx) : Respects R (condition cx span env) :=
  (h _ _ _).bind fun _ => Respects.ite (fun _ => errorAt_respects) fun _ => Respects.pure

/-- The operand of a text test reads nothing of what is noted, where its expression does not. -/
theorem textOperand_respects (hR : Untold R) {span opSpan : Span} {op : TextOp}
    (h : CompilesAlike R cx) : Respects R (textOperand span opSpan op cx env agg) := by
  refine Respects.bind (h _ _ _) fun x => Respects.ite (fun _ => errorAt_respects) fun _ => ?_
  split
  · exact Respects.ite (fun _ => Respects.bind (hR.read _ _) fun _ => Respects.pure)
      fun _ => Respects.pure
  · exact Respects.ite (fun _ => Respects.pure) fun _ => Respects.pure
  · exact Respects.pure

/-- The check of a call reads nothing of what is noted. -/
theorem checkCall_respects {name : String} {span : Span} {fn : Option ScalarFunction}
    {args : List (Expr × Span)} : Respects R (checkCall env name span fn args) :=
  checkCall_relates (List.forall₂_same.2 fun _ _ => rfl)

/-- Compiling an expression reads no more of the state than the scope. -/
theorem expr_alike (hR : Untold R) (e : Syntax.Expr) : CompilesAlike R (expr e) := by
  intro env want agg
  have h := expr_as hR id e env env.text want agg
  rwa [Syntax.Expr.mapSpans_id] at h

end Alone

section Predicates

variable {R : CompilerState → CompilerState → Prop} {env : Env}

/-- A filter for one value reads nothing of what is noted, where its side does not. -/
theorem filterValue_respects {text : Option TextOp} {negated : Bool} {side : Compile} {x : Expr}
    {v : String} (hside : CompilesAlike R side) :
    Respects R (filterValue env text negated side x v) := by
  unfold filterValue
  simp only
  split
  · exact Respects.ite (fun _ => Respects.bind (hside _ _ _) fun _ => Respects.pure) fun _ => Respects.pure
  · exact Respects.pure

/-- A filter for each value reads nothing of what is noted, where its side does not. -/
theorem filterValues_respects {text : Option TextOp} {negated : Bool} {side : Compile} {x all : Expr}
    {values : List String} (hside : CompilesAlike R side) :
    Respects R (filterValues env text negated side x all values) := by
  induction values generalizing all with
  | nil => exact Respects.pure
  | cons v rest ih => exact Respects.bind (filterValue_respects hside) fun _ => ih

end Predicates

end SolidTrace.LogQuery
