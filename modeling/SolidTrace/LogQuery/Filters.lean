import SolidTrace.LogQuery.Filter
import SolidTrace.LogQuery.Notes
import SolidTrace.LogQuery.TwoValued

/-!
# Dashboard filters in conditions

What a where's condition means where it compares Fields with Dashboard filters: a filter set to All asks
nothing, and one of several values asks for any of them, or none of them where the comparison is
negated. A value is text, and can stand for the number or bool it reads as.
-/

namespace SolidTrace.LogQuery

section Meaning

/-- What a side of a comparison compiles to in a scope, if it does. -/
def compiledIn (scope : Scope) (c : Compiler Expr) : Option Expr :=
  match c.run ⟨[], scope, false, [], []⟩ with
  | .ok (x, _) => some x
  | .error _ => none

/-- Whether an operator that a filter is compared by is negated. -/
def negatedOp : Syntax.BinaryOp → Bool
  | .ne | .neCI | .notContains | .notContainsCS | .notStartsWith | .notStartsWithCS => true
  | _ => false

/-- Whether an operator that a filter is compared by asks for equality, in some case. -/
def asksEquality : Syntax.BinaryOp → Bool
  | .eq | .ne | .eqCI | .neCI => true
  | _ => false

def equalityOp (op : Syntax.BinaryOp) : CompareOp := if negatedOp op then .ne else .eq

/-- What the side compared with a filter is read as: as the operator reads text, or as a string. -/
def filterOperand (env : Env) (scope : Scope) (opSpan : Span) (op : Syntax.BinaryOp)
    (side : Syntax.Expr) : Option Expr :=
  match textOp? op with
  | some text => compiledIn scope (textOperand side.span opSpan text (expr side) env none)
  | none => compiledIn scope (expr side env .string none)

variable (holds : Expr → Prop) (env : Env) (scope : Scope)

/-- Whether a comparison with one text holds. -/
def holdsText (op : Syntax.BinaryOp) (x : Expr) (v : String) : Prop :=
  match textOp? op with
  | some text => holds (text.match x v)
  | none => holds (.compare x (equalityOp op) (.literal (.string v)))

/-- Whether a comparison with the number or bool that a value reads as holds, of the side read as one. -/
def holdsRead (op : Syntax.BinaryOp) (side : Syntax.Expr) (l : Literal) : Prop :=
  ∃ y, compiledIn scope (expr side env l.valueType none) = some y ∧
    holds (.compare y (equalityOp op) (.literal l))

/-- Whether a comparison with one value of a filter holds. Of an Attribute or a value of no fixed type
an equality holds of the text or of what it reads as, and of a number or a bool of what it reads as. -/
def holdsValue (op : Syntax.BinaryOp) (side : Syntax.Expr) (x : Expr) (v : String) : Prop :=
  if asksEquality op = true ∧ untyped x = true ∧ x.typ = .string then
    if negatedOp op then holdsText holds op x v ∧ ∀ l, readsAs env v = some l → holdsRead holds env scope op side l
    else holdsText holds op x v ∨ ∃ l, readsAs env v = some l ∧ holdsRead holds env scope op side l
  else if (op = .eq ∨ op = .ne) ∧ (x.typ = .number ∨ x.typ = .bool) then
    if negatedOp op then ∀ l, readsAs env v = some l → l.valueType = x.typ → holds (.compare x .ne (.literal l))
    else ∃ l, readsAs env v = some l ∧ l.valueType = x.typ ∧ holds (.compare x .eq (.literal l))
  else holdsText holds op x v

/-- `side op $name`: true of every row without a value that is not empty, and else holds with every value
where it is negated, and with any where it is not. -/
def holdsFilter (opSpan : Span) (op : Syntax.BinaryOp) (p : Syntax.Param) (side : Syntax.Expr) : Prop :=
  let values := (env.values p.name).filter (· != "")
  values = [] ∨ ∃ x, filterOperand env scope opSpan op side = some x ∧
    if negatedOp op then ∀ v ∈ values, holdsValue holds env scope op side x v
    else ∃ v ∈ values, holdsValue holds env scope op side x v

/-- Whether a where's condition holds, given which comparisons with no filter do. -/
def Means : Syntax.Expr → Prop
  | .paren _ x _ => Means x
  | .binary x opSpan op y =>
    match op with
    | .and => Means x ∧ Means y
    | .or => Means x ∨ Means y
    | op =>
      match filterSides x op y with
      | some (p, side) => holdsFilter holds env scope opSpan op p side
      | none => ∃ c, compiledIn scope (condition (expr (.binary x opSpan op y))
          (.union [x.span, opSpan, y.span]) env) = some c ∧ holds c
  | e => ∃ c, compiledIn scope (condition (expr e) e.span env) = some c ∧ holds c

/-- Which conditions hold of a row: those of both sides of an and, and of a side of an or. Values of two
types are never equal. -/
structure Holding : Prop where
  and : ∀ x y, holds (.and x y) ↔ holds x ∧ holds y
  or : ∀ x y, holds (.or x y) ↔ holds x ∨ holds y
  eq : ∀ x l, x.typ ≠ l.valueType → ¬ holds (.compare x .eq (.literal l))
  ne : ∀ x l, x.typ ≠ l.valueType → holds (.compare x .ne (.literal l))

end Meaning

section Compiled

variable {env : Env} {scope : Scope}

/-- What compiles in a scope compiles to the same whatever else the state is. -/
theorem compiledIn_yields {c : Compiler Expr} (hc : Respects (AtScopes scope) c) :
    YieldsFrom (AtScope scope) c fun x => compiledIn scope c = some x := by
  intro s x s' hs hrun
  have hstart : AtScopes scope s ⟨[], scope, false, [], []⟩ := ⟨hs, rfl⟩
  obtain ⟨y, t', hrun', rfl, hend⟩ := Relates.exists_ok hc hstart hrun
  refine ⟨?_, hend.1⟩
  unfold compiledIn
  rw [hrun']

/-- Whether a side is written with a plus, which asks for a number whatever is asked of the side. -/
def plusSigned : Syntax.Expr → Bool
  | .paren _ x _ => plusSigned x
  | .unary _ .plus _ => true
  | _ => false

/-- A number under plus signs reads the same whatever is wanted of it. -/
theorem expr_of_plusSigned {e : Syntax.Expr} (h : plusSigned e = true) (want want' : ValueType)
    {agg : Option RateBasis} : expr e env want agg = expr e env want' agg := by
  fun_induction plusSigned e with
  | case1 l x r ih => simpa only [expr] using ih h
  | case2 => rfl
  | case3 => cases h

/-- What becomes untyped when read as a text is a text. -/
theorem typed_untyped {x : Expr} (hx : untyped x = false) (h : untyped (typed x .string) = true) :
    (typed x .string).typ = .string := by
  unfold typed at h ⊢
  split
  · rfl
  next hnot =>
    rw [if_neg hnot, hx] at h
    cases h

variable {cx cy : Compile} {want : ValueType} {agg : Option RateBasis}

/-- An error yields anything. -/
theorem errorAt_yields {α : Type} {span : Span} {message : String} {P : α → Prop} :
    Yields (errorAt span message : Compiler α) P := Yields.throw

/-- An element of an in has a type of its own. -/
theorem inElem_made {span : Span} {so : Option Expr} :
    Yields (inElem cx span cy env agg so) fun x => untyped x = false := by
  unfold inElem
  refine Yields.seq fun value => ?_
  split
  · refine Yields.seq fun x => ?_
    simp only
    split <;> exact Yields.pure rfl
  · exact errorAt_yields

/-- More elements of an in have a type of their own. -/
theorem inElems_made {m : Expr} {rest : List (Span × Compile)} (hm : untyped m = false) :
    Yields (inElems cx env agg m rest) fun x => untyped x = false := by
  induction rest generalizing m with
  | nil => exact Yields.pure hm
  | cons arg rest ih => exact Yields.bind inElem_made fun m' hm' => ih hm'

/-- An in has a type of its own. -/
theorem inList_made {negated : Bool} {first : Span × Compile} {rest : List (Span × Compile)} :
    Yields (inList negated cx first rest env want agg) fun x => untyped x = false := by
  refine Yields.bind inElem_made fun m hm => Yields.bind (inElems_made hm) fun all hall => Yields.pure ?_
  split
  · rfl
  · exact hall

/-- A comparison has a type of its own. -/
theorem compare_made {span : Span} {x y : Syntax.Expr} {op : CompareOp} :
    Yields (compare span x op y cx cy env want agg) fun x => untyped x = false := by
  unfold compare
  refine Yields.seq fun y₀ => Yields.seq fun x' => ?_
  have hrest : ∀ y', Yields (do
      if x'.typ == .dynamic && y'.typ == .dynamic then
        if isIdent x && isIdent y && (← get).scope.logs then
          errorAt y.span "expected a value: a string, a number, true or false"
        else
          errorAt span "can't compare two values whose types aren't known; convert one, as in tostring(a) == tostring(b)"
      else if op != .eq && op != .ne && x'.typ != y'.typ then
        errorAt span ("can't compare a " ++ x'.typ.text ++ " with a " ++ y'.typ.text)
      else if op != .eq && op != .ne && x'.typ == .bool then
        errorAt span "bools can only be compared with == and !="
      else return .compare x' op y' : Compiler Expr) fun x => untyped x = false := fun y' =>
    Yields.ite (fun _ => Yields.seq fun _ => Yields.ite (fun _ => errorAt_yields) fun _ => errorAt_yields)
      fun _ => Yields.ite (fun _ => errorAt_yields) fun _ =>
        Yields.ite (fun _ => errorAt_yields) fun _ => Yields.pure rfl
  exact Yields.ite (fun _ => Yields.seq hrest) fun _ => hrest y₀

/-- Arithmetic has a type of its own. -/
theorem arith_made {span : Span} {op : ArithOp} :
    Yields (arith span op cx cy env want agg) fun x => untyped x = false := by
  unfold arith
  refine Yields.seq fun x => Yields.seq fun y => Yields.ite (fun _ => Yields.pure rfl) fun _ =>
    Yields.ite (fun _ => ?_) fun _ => Yields.ite (fun _ => Yields.pure rfl) fun _ => errorAt_yields
  split <;> exact Yields.pure rfl

/-- A text match has a type of its own. -/
theorem match_made {text : TextOp} {x : Expr} {pattern : String} :
    untyped (text.match x pattern) = false := by
  unfold TextOp.match
  simp only
  split <;> rfl

/-- A text test has a type of its own. -/
theorem textTest_made {x y : Syntax.Expr} {opSpan : Span} {text : TextOp} :
    Yields (textTest x opSpan text y cx env want agg) fun x => untyped x = false := by
  unfold textTest
  refine Yields.seq fun operand => ?_
  split
  · exact Yields.ite (fun _ => errorAt_yields) fun _ => errorAt_yields
  · exact Yields.ite (fun _ => Yields.seq fun _ => Yields.pure match_made) fun _ => Yields.pure match_made
  · exact errorAt_yields

/-- A binary operation has a type of its own. -/
theorem binary_made {x y : Syntax.Expr} {opSpan : Span} {op : Syntax.BinaryOp} :
    Yields (binary x opSpan op y cx cy env want agg) fun x => untyped x = false := by
  unfold binary
  simp only
  split
  · exact Yields.seq fun _ => Yields.seq fun _ => Yields.pure rfl
  · exact Yields.seq fun _ => Yields.seq fun _ => Yields.pure rfl
  · split
    · exact arith_made
    · exact compare_made
    · exact textTest_made
    · exact errorAt_yields

/-- The argument of min or max has a type of its own. -/
theorem extremeArg_made {fn : AggregateFunction} {arg : Arg} :
    Yields (extremeArg fn arg env) fun x => untyped x = false := by
  unfold extremeArg
  refine Yields.seq fun x₀ => ?_
  exact Yields.ite (fun _ => Yields.seq fun _ => Yields.ite (fun _ => errorAt_yields) fun _ => Yields.pure rfl)
    fun _ => Yields.ite (fun _ => errorAt_yields) fun _ => Yields.pure rfl

/-- An aggregate has a type of its own. -/
theorem aggregate_made {span : Span} {fn : AggregateFunction} {args : List Arg} {basis : RateBasis} :
    Yields (aggregate span fn args basis env) fun x => untyped x = false := by
  unfold aggregate
  split
  · exact Yields.pure rfl
  · exact errorAt_yields
  · exact Yields.seq fun _ => Yields.ite (fun _ => errorAt_yields) fun _ => Yields.pure rfl
  · exact Yields.seq fun _ => Yields.ite (fun _ => errorAt_yields) fun _ =>
      Yields.ite (fun _ => errorAt_yields) fun _ => Yields.pure rfl
  · exact Yields.seq fun _ => Yields.pure rfl
  · exact errorAt_yields
  · exact Yields.seq fun _ => Yields.seq fun _ => Yields.pure rfl
  · exact errorAt_yields
  · exact Yields.seq fun _ => Yields.pure rfl
  · exact Yields.seq fun _ => Yields.pure rfl
  · exact extremeArg_made
  · exact extremeArg_made
  · exact Yields.seq fun _ => Yields.pure rfl
  · exact errorAt_yields

/-- A scalar function has a type of its own. -/
theorem scalar_made {name : String} {span : Span} {f : Function} {args : List Arg} :
    Yields (scalar name span f args env agg) fun x => untyped x = false := by
  unfold scalar
  refine Yields.ite (fun _ => ?_) fun _ => Yields.seq fun args => Yields.seq fun _ => ?_
  · split <;> exact errorAt_yields
  · split
    · exact Yields.pure rfl
    · exact Yields.pure rfl
    · exact errorAt_yields

/-- A test of emptiness has a type of its own. -/
theorem emptyTest_made {name : String} {span : Span} {negated : Bool} {args : List Arg} :
    Yields (emptyTest name span negated args env agg) fun x => untyped x = false := by
  unfold emptyTest
  split
  · refine Yields.seq fun _ => Yields.pure ?_
    split <;> rfl
  · exact errorAt_yields

/-- A bin that chooses its size has a type of its own. -/
theorem binAuto_made {span : Span} {args : List Arg} :
    Yields (binAuto span args env agg) fun x => untyped x = false := by
  unfold binAuto
  split
  · exact Yields.seq fun _ => Yields.ite (fun _ => errorAt_yields) fun _ => Yields.pure rfl
  · exact errorAt_yields

/-- A call, whatever its function, has a type of its own. -/
theorem callOf_made {span : Span} {func : Syntax.Ident} {args : List Arg} :
    Yields (callOf span func args env agg) fun x => untyped x = false := by
  unfold callOf
  split
  · exact Yields.seq fun _ => Yields.pure rfl
  · exact errorAt_yields
  · exact Yields.pure rfl
  · exact errorAt_yields
  · exact Yields.seq fun _ => Yields.pure rfl
  · exact errorAt_yields
  · exact binAuto_made
  · split
    · exact emptyTest_made
    · split
      · exact errorAt_yields
      · exact aggregate_made
    · exact scalar_made
    · exact errorAt_yields

/-- Read as a string, a value of no fixed type is a string, but for one written with a plus. -/
theorem expr_untyped : ∀ e : Syntax.Expr, Yields (expr e env .string agg) fun x =>
    untyped x = true → x.typ = .string ∨ plusSigned e = true
  | .paren _ x _ => expr_untyped x
  | .ident id => by
    rw [expr]
    unfold name
    refine Yields.seq fun s => ?_
    simp only
    split
    · refine Yields.ite (fun _ => Yields.pure fun _ => .inl rfl) fun _ => ?_
      exact Yields.pure fun h => absurd h Bool.false_ne_true
    · refine Yields.ite (fun _ => errorAt_yields) fun _ => ?_
      split
      · exact Yields.pure fun h => absurd h Bool.false_ne_true
      · exact Yields.seq fun _ => Yields.seq fun _ => Yields.pure fun _ => .inl rfl
  | .param _ => Yields.ite (fun _ => errorAt_yields) fun _ => errorAt_yields
  | .basicLit _ => Yields.seq fun _ => Yields.pure fun h => absurd h Bool.false_ne_true
  | .binary _ _ _ _ => binary_made.mono fun _ hx h => absurd h (by simp [hx])
  | .inList _ _ _ _ _ _ _ => inList_made.mono fun _ hx h => absurd h (by simp [hx])
  | .unary opSpan op x => by
    rw [expr]
    unfold unary
    split
    · exact Yields.seq fun _ => Yields.pure fun h => absurd h Bool.false_ne_true
    · refine Yields.seq fun x => ?_
      split
      · exact Yields.pure fun h => absurd h Bool.false_ne_true
      · refine Yields.ite (fun _ => errorAt_yields) fun _ =>
          Yields.ite (fun hplus => Yields.pure fun _ => .inr ?_) fun _ =>
            Yields.pure fun h => absurd h Bool.false_ne_true
        have hop : op = .plus := by simpa using hplus
        subst hop
        rfl
  | .call _ _ _ _ => Yields.bind callOf_made fun _ hx => Yields.pure fun h => .inl (typed_untyped hx h)
  | .member x _ _ => by
    rw [expr]
    unfold reach
    refine Yields.seq fun x => Yields.ite (fun _ => errorAt_yields) fun _ => Yields.seq fun _ => ?_
    split <;> exact Yields.pure fun h => .inl (typed_untyped rfl h)
  | .index x _ _ _ => by
    rw [expr]
    unfold reach
    refine Yields.seq fun x => Yields.ite (fun _ => errorAt_yields) fun _ => Yields.seq fun _ => ?_
    split <;> exact Yields.pure fun h => .inl (typed_untyped rfl h)

end Compiled

section Values

variable {holds : Expr → Prop} {env : Env} {scope : Scope} {op : Syntax.BinaryOp} {side : Syntax.Expr}
  {x : Expr} {v : String}

/-- A filter's value is read as a number or a bool. -/
theorem readsAs_valueType {l : Literal} (h : readsAs env v = some l) :
    l.valueType = .number ∨ l.valueType = .bool := by
  unfold readsAs at h
  split at h
  · cases h
    exact .inl rfl
  · split at h
    · cases h
      exact .inr rfl
    · cases h

/-- A value as one of a type, which it is only where it reads as one. -/
theorem valueAs_cases (t : ValueType) :
    (∃ l, readsAs env v = some l ∧ l.valueType = t ∧ valueAs env t v = l) ∨
      ((∀ l, readsAs env v = some l → l.valueType ≠ t) ∧ valueAs env t v = .string v) := by
  unfold valueAs
  cases hreads : readsAs env v with
  | none => exact .inr ⟨nofun, rfl⟩
  | some l =>
    by_cases ht : l.valueType = t
    · exact .inl ⟨l, rfl, ht, if_pos ht⟩
    · exact .inr ⟨by rintro _ ⟨rfl⟩; exact ht, if_neg ht⟩

/-- Values of two types are never equal. -/
theorem Holding.apart (hH : Holding holds) {l : Literal} (h : x.typ ≠ l.valueType) :
    holds (.compare x (equalityOp op) (.literal l)) ↔ negatedOp op = true := by
  unfold equalityOp
  split
  next hop => simp [hop, hH.ne x l h]
  next hop => simp [hop, hH.eq x l h]

/-- The comparison of a side with a text, as the code makes it. -/
def textComparison (env : Env) (op : Syntax.BinaryOp) (x : Expr) (v : String) : Expr :=
  match textOp? op with
  | some text => text.match x v
  | none => .compare x (equalityOp op) (.literal (valueAs env x.typ v))

/-- Of a number or a bool, an equality is with what the value reads as, if it is of the type. -/
theorem holds_typedValue (hH : Holding holds) (hop : op = .eq ∨ op = .ne)
    (ht : x.typ = .number ∨ x.typ = .bool) :
    holds (textComparison env op x v) ↔
      if negatedOp op then
        ∀ l, readsAs env v = some l → l.valueType = x.typ → holds (.compare x .ne (.literal l))
      else ∃ l, readsAs env v = some l ∧ l.valueType = x.typ ∧ holds (.compare x .eq (.literal l)) := by
  have hmade : textComparison env op x v =
      .compare x (equalityOp op) (.literal (valueAs env x.typ v)) := by
    rcases hop with rfl | rfl <;> rfl
  rw [hmade]
  rcases @valueAs_cases env v x.typ with ⟨l, hl, hlt, hvalue⟩ | ⟨hnone, hvalue⟩
  · rw [hvalue]
    rcases hop with rfl | rfl <;> simp [negatedOp, equalityOp, hl, hlt]
  · rw [hvalue, hH.apart (by rcases ht with ht | ht <;> simp [ht, Literal.valueType])]
    rcases hop with rfl | rfl
    · simp only [negatedOp, Bool.false_eq_true, if_false, false_iff, not_exists, not_and]
      exact fun l hl hlt => absurd hlt (hnone l hl)
    · simp only [negatedOp, if_true, true_iff]
      exact fun l hl hlt => absurd hlt (hnone l hl)

/-- Of anything else an equality is with the text. -/
theorem textComparison_of_text (h : ¬((op = .eq ∨ op = .ne) ∧ (x.typ = .number ∨ x.typ = .bool)))
    (hop : filterOps op ≠ none) : holds (textComparison env op x v) ↔ holdsText holds op x v := by
  unfold textComparison holdsText
  cases htext : textOp? op with
  | some text => rfl
  | none =>
    have heq : op = .eq ∨ op = .ne := by
      cases op <;> simp [textOp?, filterOps] at htext hop ⊢
    have hvalue : valueAs env x.typ v = .string v := by
      rcases @valueAs_cases env v x.typ with ⟨l, hl, hlt, -⟩ | ⟨-, hvalue⟩
      · exact absurd ⟨heq, hlt ▸ readsAs_valueType hl⟩ h
      · exact hvalue
    simp only [hvalue]

/-- The joining of comparisons with several values: any of them, or all where they are negated. -/
def joined (negated : Bool) (m other : Expr) : Expr := if negated then .and m other else .or m other

/-- Tests that are joined hold as their operator says. -/
theorem holds_joined (hH : Holding holds) {negated : Bool} {m other : Expr} :
    holds (joined negated m other) ↔ if negated then holds m ∧ holds other else holds m ∨ holds other := by
  cases negated
  · exact hH.or m other
  · exact hH.and m other

/-- Tests that are joined do not always hold. -/
theorem joined_isAlways {negated : Bool} {m other : Expr} : (joined negated m other).isAlways = false := by
  cases negated <;> rfl

/-- A comparison of texts does not always hold. -/
theorem textComparison_isAlways : (textComparison env op x v).isAlways = false := by
  unfold textComparison
  split
  · unfold TextOp.match
    simp only
    split <;> rfl
  · rfl

/-- What the operand of a filter is known to be: a string where the operator reads text, and where it is
of no fixed type. -/
structure OperandOf (env : Env) (scope : Scope) (op : Syntax.BinaryOp) (side : Syntax.Expr) (x : Expr) :
    Prop where
  text : textOp? op ≠ none → x.typ = .string
  untyped : untyped x = true → x.typ = .string ∨
    (textOp? op = none ∧ plusSigned side = true ∧ compiledIn scope (expr side env .string none) = some x)

/-- The other comparison with a value, of the side read as the number or bool it reads as. -/
theorem holds_joined_other (hH : Holding holds) (hop : filterOps op ≠ none)
    (hx : OperandOf env scope op side x) (huntyped : untyped x = true) {l : Literal} {y : Expr}
    (heq : asksEquality op = true) (hl : readsAs env v = some l)
    (hy : compiledIn scope (expr side env l.valueType none) = some y) :
    holds (joined (negatedOp op) (textComparison env op x v)
      (.compare y (equalityOp op) (.literal l))) ↔ holdsValue holds env scope op side x v := by
  have hread : holdsRead holds env scope op side l ↔ holds (.compare y (equalityOp op) (.literal l)) := by
    simp [holdsRead, hy]
  rw [holds_joined hH]
  by_cases hstring : x.typ = .string
  · have htext := @textComparison_of_text holds env op x v (by simp [hstring]) hop
    have hfirst : asksEquality op = true ∧ untyped x = true ∧ x.typ = .string := ⟨heq, huntyped, hstring⟩
    rw [htext, holdsValue, if_pos hfirst]
    cases negatedOp op <;> simp [hl, hread]
  · -- Written with a plus, the side is the same however it is asked for.
    obtain ⟨htext, hplus, hcompiled⟩ := (hx.untyped huntyped).resolve_left hstring
    have hop' : op = .eq ∨ op = .ne := by
      cases op <;> simp [textOp?, filterOps] at htext hop ⊢
    have hxy : y = x := by
      rw [expr_of_plusSigned hplus l.valueType .string, hcompiled] at hy
      exact (Option.some.inj hy).symm
    subst hxy
    have hsame : holds (textComparison env op y v) ↔ holds (.compare y (equalityOp op) (.literal l)) := by
      have hmade : textComparison env op y v =
          .compare y (equalityOp op) (.literal (valueAs env y.typ v)) := by
        rcases hop' with rfl | rfl <;> rfl
      rw [hmade]
      rcases @valueAs_cases env v y.typ with ⟨l', hl', -, hvalue⟩ | ⟨hnone, hvalue⟩
      · rw [hl] at hl'
        cases hl'
        rw [hvalue]
      · rw [hvalue, hH.apart (Ne.symm (hnone l hl)), hH.apart hstring]
    have hvalue : holdsValue holds env scope op side y v ↔ holds (textComparison env op y v) := by
      unfold holdsValue
      rw [if_neg (fun h => hstring h.2.2)]
      split
      next h => exact (holds_typedValue hH h.1 h.2).symm
      next h => exact (textComparison_of_text h hop).symm
    rw [hvalue, ← hsame]
    cases negatedOp op <;> simp

/-- Where a value is compared once. -/
theorem holds_textComparison (hH : Holding holds) (hop : filterOps op ≠ none)
    (honce : readsAs env v = none ∨ ¬(untyped x = true ∧ asksEquality op = true)) :
    holds (textComparison env op x v) ↔ holdsValue holds env scope op side x v := by
  unfold holdsValue
  split
  next h =>
    have hnone : readsAs env v = none := honce.resolve_right fun hnot => hnot ⟨h.2.1, h.1⟩
    rw [@textComparison_of_text holds env op x v (by simp [h.2.2]) hop]
    cases negatedOp op <;> simp [hnone]
  · split
    next h => exact holds_typedValue hH h.1 h.2
    next h => exact textComparison_of_text h hop

/-- A text operator asks for equality when its test is one. -/
theorem asksEquality_of_text {text : TextOp} (h : textOp? op = some text) :
    (text.op == .equals) = asksEquality op := by
  cases op <;> cases h <;> rfl

/-- An operator that is no text operator asks for equality. -/
theorem asksEquality_of_none (hop : filterOps op ≠ none) (h : textOp? op = none) :
    asksEquality op = true := by
  cases op <;> simp [textOp?, filterOps, asksEquality] at h hop ⊢

/-- A filter for one value compares with the value as it reads, and as a text. -/
theorem filterValue_eq (hop : filterOps op ≠ none) {side : Compile} :
    filterValue env (textOp? op) (negatedOp op) side x v = (match readsAs env v with
      | some l =>
        if untyped x && asksEquality op then do
          let y ← side env l.valueType none
          return joined (negatedOp op) (textComparison env op x v) (.compare y (equalityOp op) (.literal l))
        else return textComparison env op x v
      | none => return textComparison env op x v) := by
  unfold filterValue textComparison equalityOp joined
  cases htext : textOp? op with
  | some text =>
    have hequality := asksEquality_of_text htext
    generalize asksEquality op = equality at hequality
    subst hequality
    rfl
  | none =>
    have hequality := asksEquality_of_none hop htext
    generalize asksEquality op = equality at hequality
    subst hequality
    rfl

/-- A comparison with one value is made to hold when it should. -/
theorem filterValue_means (hH : Holding holds) (hop : filterOps op ≠ none)
    (hx : OperandOf env scope op side x) :
    YieldsFrom (AtScope scope) (filterValue env (textOp? op) (negatedOp op) (expr side) x v) fun m =>
      m.isAlways = false ∧ (holds m ↔ holdsValue holds env scope op side x v) := by
  rw [filterValue_eq hop]
  split
  next l hl =>
    refine YieldsFrom.ite (fun hboth => ?_) fun hnot => .pure ⟨textComparison_isAlways, ?_⟩
    · rw [Bool.and_eq_true] at hboth
      have hrespects : Respects (AtScopes scope) (expr side env l.valueType none) :=
        expr_alike (atScopes_untold scope) side _ _ _
      refine (compiledIn_yields hrespects).bind fun y hy => .pure ⟨joined_isAlways, ?_⟩
      exact holds_joined_other hH hop hx hboth.1 hboth.2 hl hy
    · exact holds_textComparison hH hop (.inr (by simpa using hnot))
  next hnone => exact .pure ⟨textComparison_isAlways, holds_textComparison hH hop (.inl hnone)⟩

/-- A filter for values means each of them, joined as its operator says. -/
theorem filterValues_means (hH : Holding holds) (hop : filterOps op ≠ none)
    (hx : OperandOf env scope op side x) {all : Expr} {values : List String}
    (hall : all.isAlways = false) :
    YieldsFrom (AtScope scope) (filterValues env (textOp? op) (negatedOp op) (expr side) x all values)
      fun m => m.isAlways = false ∧ (holds m ↔
        if negatedOp op then holds all ∧ ∀ v ∈ values, holdsValue holds env scope op side x v
        else holds all ∨ ∃ v ∈ values, holdsValue holds env scope op side x v) := by
  induction values generalizing all with
  | nil => exact .pure ⟨hall, by simp⟩
  | cons v rest ih =>
    unfold filterValues
    refine (filterValue_means hH hop hx).bind fun m hm => ?_
    have hjoined : (joined (negatedOp op) all m).isAlways = false := joined_isAlways
    refine (ih hjoined).mono fun r hr => ⟨hr.1, hr.2.trans ?_⟩
    rw [holds_joined hH, hm.2]
    cases negatedOp op <;> simp [and_assoc, or_assoc]

/-- The operand of a filter is a string as it is documented. -/
theorem filterOperand_yields {opSpan : Span} : YieldsFrom (AtScope scope) (match textOp? op with
      | some text => textOperand side.span opSpan text (expr side) env none
      | none => expr side env .string none : Compiler Expr)
    fun x => filterOperand env scope opSpan op side = some x ∧ OperandOf env scope op side x := by
  have hR := atScopes_untold scope
  unfold filterOperand
  cases htext : textOp? op with
  | some text =>
    have hrespects : Respects (AtScopes scope) (textOperand side.span opSpan text (expr side) env none) :=
      textOperand_respects hR (expr_alike hR side)
    intro s x s' hs hrun
    obtain ⟨hcompiled, hscope⟩ := compiledIn_yields hrespects s x s' hs hrun
    obtain ⟨hchecked, -⟩ := textOperand_checks (expr_checks side) s x s' hs hrun
    exact ⟨⟨hcompiled, fun _ => hchecked.2, fun _ => .inl hchecked.2⟩, hscope⟩
  | none =>
    have hrespects : Respects (AtScopes scope) (expr side env .string none) :=
      expr_alike hR side _ _ _
    intro s x s' hs hrun
    obtain ⟨hcompiled, hscope⟩ := compiledIn_yields hrespects s x s' hs hrun
    have huntyped := expr_untyped side s x s' hrun
    refine ⟨⟨hcompiled, fun hnot => absurd htext hnot, fun hx => ?_⟩, hscope⟩
    exact (huntyped hx).imp id fun hplus => ⟨htext, hplus, hcompiled⟩

/-- A filter is negated when its operator is. -/
theorem negatedOp_eq (hop : filterOps op ≠ none) :
    (op == .ne || ((textOp? op).map TextOp.negated).getD false) = negatedOp op := by
  cases op <;> simp [filterOps] at hop <;> rfl

/-- A row passes a compiled predicate: it is true of every row, or holds. -/
def Keeps (holds : Expr → Prop) (p : Expr) : Prop := p.isAlways = true ∨ holds p

/-- What a comparison with a filter compiles to holds when it should. -/
theorem filter_means (hH : Holding holds) (hop : filterOps op ≠ none) {opSpan : Span} {p : Syntax.Param} :
    YieldsFrom (AtScope scope) (filter env opSpan op p side) fun r =>
      Keeps holds r ↔ holdsFilter holds env scope opSpan op p side := by
  have hvalues : YieldsFrom (AtScope scope) (valuesOf env p) fun values =>
      values = (env.values p.name).filter (· != "") := by
    refine (YieldsFrom.modify fun s hs => ?_).bind fun _ _ => .pure rfl
    split <;> exact hs
  have hforget : ∀ (before : CompilerState) (x : Expr), (env.values p.name).filter (· != "") = [] →
      filterOperand env scope opSpan op side = some x ∧ OperandOf env scope op side x →
      YieldsFrom (AtScope scope) (do
        modify fun s => { s with readOrder := before.readOrder, names := before.names }
        return .always : Compiler Expr) fun r =>
        Keeps holds r ↔ holdsFilter holds env scope opSpan op p side := by
    intro before x hv hx
    have hscope : ∀ s, AtScope scope s →
        AtScope scope { s with readOrder := before.readOrder, names := before.names } := fun s hs => hs
    refine (YieldsFrom.modify hscope).bind fun _ _ => .pure ?_
    unfold holdsFilter
    simp only [hv, hx.1, Option.some.injEq, exists_eq_left']
    simp [Keeps, Expr.isAlways]
  have hsome : ∀ (v : String) (rest : List String) (x : Expr),
      (env.values p.name).filter (· != "") = v :: rest →
      filterOperand env scope opSpan op side = some x ∧ OperandOf env scope op side x →
      YieldsFrom (AtScope scope) (do
        let m ← filterValue env (textOp? op) (negatedOp op) (expr side) x v
        filterValues env (textOp? op) (negatedOp op) (expr side) x m rest : Compiler Expr) fun r =>
        Keeps holds r ↔ holdsFilter holds env scope opSpan op p side := by
    intro v rest x hv hx
    refine (filterValue_means hH hop hx.2).bind fun m hm => ?_
    refine (filterValues_means hH hop hx.2 hm.1).mono fun r hr => ?_
    unfold holdsFilter
    simp only [hv, hx.1, Option.some.injEq, exists_eq_left']
    rw [Keeps, hr.1, hr.2, hm.2]
    cases negatedOp op <;> simp
  have hoperand := @filterOperand_yields env scope op side opSpan
  unfold filter
  split
  · exact errorAt_checks
  refine hvalues.bind fun values hv => YieldsFrom.get.bind fun before _ => ?_
  simp only [negatedOp_eq hop]
  split
  next text htext =>
    simp only [htext] at hoperand
    refine hoperand.bind fun x hx => ?_
    cases values with
    | nil => exact hforget before x hv.symm hx
    | cons v rest => exact hsome v rest x hv.symm hx
  next htext =>
    simp only [htext] at hoperand
    refine hoperand.bind fun x hx => ?_
    cases values with
    | nil => exact hforget before x hv.symm hx
    | cons v rest => exact hsome v rest x hv.symm hx

/-- What a where's condition compiles to keeps a row just when the condition says so. -/
theorem predicate_means (hH : Holding holds) : ∀ e : Syntax.Expr,
    YieldsFrom (AtScope scope) (predicate env e) fun p => Keeps holds p ↔ Means holds env scope e := by
  have hcondition : ∀ (e : Syntax.Expr) (span : Span), YieldsFrom (AtScope scope)
      (condition (expr e) span env) fun c => Keeps holds c ↔
        ∃ c', compiledIn scope (condition (expr e) span env) = some c' ∧ holds c' := by
    intro e span s c s' hs hrun
    have hrespects : Respects (AtScopes scope) (condition (expr e) span env) :=
      condition_respects (expr_alike (atScopes_untold scope) e)
    obtain ⟨hcompiled, hscope⟩ := compiledIn_yields hrespects s c s' hs hrun
    have htest := (condition_checks (expr_checks e) s c s' hs hrun).1
    have halways : c.isAlways = false := by
      cases c with
      | always => cases htest.1
      | _ => rfl
    refine ⟨?_, hscope⟩
    simp [Keeps, halways, hcompiled]
  apply predicate_induct env (motive := fun e m =>
    YieldsFrom (AtScope scope) m fun p => Keeps holds p ↔ Means holds env scope e)
  case paren => exact fun _ _ _ ih => by simpa only [Means] using ih
  case and =>
    intro x opSpan y ihx ihy
    refine ihx.bind fun px hpx => ihy.bind fun py hpy => .pure ?_
    rw [Means, ← hpx, ← hpy]
    split
    next hxa => simp [Keeps, hxa]
    next hxa =>
      split
      next hya => simp [Keeps, hya]
      next hya =>
        have hand : (Expr.and px py).isAlways = false := rfl
        simp [Keeps, hxa, hya, hand, hH.and]
  case or =>
    intro x opSpan y ihx ihy
    refine ihx.bind fun px hpx => ihy.bind fun py hpy => .pure ?_
    rw [Means, ← hpx, ← hpy]
    split
    next ha =>
      have halways : Expr.always.isAlways = true := rfl
      rcases (by simpa using ha : px.isAlways = true ∨ py.isAlways = true) with hxa | hya
      · simp [Keeps, hxa, halways]
      · simp [Keeps, hya, halways]
    next ha =>
      simp only [Bool.or_eq_true, not_or] at ha
      have hor : (Expr.or px py).isAlways = false := rfl
      simp [Keeps, ha.1, ha.2, hor, hH.or]
  case filters =>
    intro x opSpan op y hand hor p side hsides
    refine (filter_means hH (filterSides_op hsides)).mono fun r hr => hr.trans ?_
    simp only [Means, hsides]
  case plain =>
    intro x opSpan op y hand hor hsides
    refine (hcondition _ _).mono fun r hr => hr.trans ?_
    simp only [Means, hsides]
  case other =>
    intro e hparen hbinary
    refine (hcondition _ _).mono fun r hr => hr.trans ?_
    simp only [Means]

end Values

section Rows

variable {ch : ClickHouse} {lib : Library} {group : List Sql.Row} {row : Sql.Row} {f : Fields}
  {values : FieldValues}

/-- The conditions that a row passes as they are written. -/
theorem holding_written : Holding fun p => (writeCondition lib f p false).holds ch group row where
  and x y := by simp [writeCondition, write, Written.ofTest, andCondition]
  or x y := by simp [writeCondition, write, Written.ofTest, orCondition]
  eq x l h := by
    have hl : (Expr.literal l).typ = l.valueType := rfl
    simp [writeCondition, write, Written.ofTest, writeCompare, CompareOp.isEquality, hl, h]
  ne x l h := by
    have hl : (Expr.literal l).typ = l.valueType := rfl
    simp [writeCondition, write, Written.ofTest, writeCompare, CompareOp.isEquality, hl, h]

/-- The conditions that hold of a row as they are documented. -/
theorem holding_documented : Holding (conditionHolds ch lib values) where
  and x y := by simp [conditionHolds, verdict, readExpr, Reading.ofVerdict]
  or x y := by simp [conditionHolds, verdict, readExpr, Reading.ofVerdict]
  eq x l h := by
    have hl : (Expr.literal l).typ = l.valueType := rfl
    simp [conditionHolds, verdict, readExpr, Reading.ofVerdict, compareVerdict, CompareOp.isEquality, hl, h]
  ne x l h := by
    have hl : (Expr.literal l).typ = l.valueType := rfl
    simp [conditionHolds, verdict, readExpr, Reading.ofVerdict, compareVerdict, CompareOp.isEquality, hl, h]

end Rows

end SolidTrace.LogQuery
