import SolidTrace.LogQuery.Grouping

/-!
# A condition on a copied Attribute

`extend c = foo` copies an Attribute to a column. A condition on the Attribute compiles, with the column
in its place, to the condition read from the column.
-/

namespace SolidTrace.LogQuery

section Renaming

mutual

/-- An expression with a column in place of an Attribute. -/
def Syntax.Expr.withColumn (foo : String) (c : Syntax.Ident) : Syntax.Expr → Syntax.Expr
  | .ident id => .ident (if nameOf id = foo then c else id)
  | .param p => .param p
  | .basicLit lit => .basicLit lit
  | .binary x opSpan op y => .binary (x.withColumn foo c) opSpan op (y.withColumn foo c)
  | .inList x opSpan negated lparen first rest rparen =>
    .inList (x.withColumn foo c) opSpan negated lparen (first.withColumn foo c)
      (allWithColumn foo c rest) rparen
  | .unary opSpan op x => .unary opSpan op (x.withColumn foo c)
  | .paren lparen x rparen => .paren lparen (x.withColumn foo c) rparen
  | .call func lparen args rparen => .call func lparen (allWithColumn foo c args) rparen
  | .member x dot name => .member (x.withColumn foo c) dot name
  | .index x lbrack index rbrack => .index (x.withColumn foo c) lbrack (index.withColumn foo c) rbrack

def allWithColumn (foo : String) (c : Syntax.Ident) : List Syntax.Expr → List Syntax.Expr
  | [] => []
  | x :: rest => x.withColumn foo c :: allWithColumn foo c rest

end

mutual

/-- The names in an expression. -/
def Syntax.Expr.names : Syntax.Expr → List String
  | .ident id => [nameOf id]
  | .param _ => []
  | .basicLit _ => []
  | .binary x _ _ y => x.names ++ y.names
  | .inList x _ _ _ first rest _ => x.names ++ first.names ++ allNames rest
  | .unary _ _ x => x.names
  | .paren _ x _ => x.names
  | .call _ _ args _ => allNames args
  | .member x _ _ => x.names
  | .index x _ index _ => x.names ++ index.names

def allNames : List Syntax.Expr → List String
  | [] => []
  | x :: rest => x.names ++ allNames rest

end

/-- A condition is over an Attribute: it names no other, and no column of the name it is copied to. -/
def Over (foo c : String) (e : Syntax.Expr) : Prop :=
  ∀ name ∈ e.names, name = foo ∨ (builtInFields name).isSome ∧ name ≠ c

/-- Whether an expression is a name, and nothing else. -/
def isName (name : String) : Syntax.Expr → Bool
  | .ident id => nameOf id == name
  | .paren _ x _ => isName name x
  | _ => false

/-- The texts that an operator may look for: the one written after it, or those of a filter. -/
def patternsOf (values : String → List String) : Syntax.Expr → List String
  | .basicLit ⟨_, .string, value⟩ => [value]
  | .param p => (values p.name).filter (· != "")
  | _ => []

/-- The texts that an operator looks for in an Attribute read as text, each with whether case counts. -/
def ownTests (values : String → List String) (foo : String) (x : Syntax.Expr) (op : Syntax.BinaryOp)
    (y : Syntax.Expr) : List (String × Bool) :=
  match textOp? op with
  | some text =>
    if text.op == .contains && isName foo x then
      (patternsOf values y).map fun pattern => (pattern, text.caseSensitive)
    else []
  | none => []

mutual

/-- The texts that a condition's contains operators look for in an Attribute. -/
def containsTests (values : String → List String) (foo : String) : Syntax.Expr → List (String × Bool)
  | .ident _ => []
  | .param _ => []
  | .basicLit _ => []
  | .binary x _ op y =>
    ownTests values foo x op y ++ containsTests values foo x ++ containsTests values foo y
  | .inList x _ _ _ first rest _ =>
    containsTests values foo x ++ containsTests values foo first ++ allContainsTests values foo rest
  | .unary _ _ x => containsTests values foo x
  | .paren _ x _ => containsTests values foo x
  | .call _ _ args _ => allContainsTests values foo args
  | .member x _ _ => containsTests values foo x
  | .index x _ index _ => containsTests values foo x ++ containsTests values foo index

def allContainsTests (values : String → List String) (foo : String) :
    List Syntax.Expr → List (String × Bool)
  | [] => []
  | x :: rest => containsTests values foo x ++ allContainsTests values foo rest

end

end Renaming

section Relation

/-- The column an Attribute is copied to. -/
def copyOf (c : String) : Expr := .columnRef c .dynamic false

mutual

/-- `y` reads the column `c` wherever `x` reads the Attribute `foo`. contains, which reads an Attribute's
JSON as text, looks for one of `tests` in it. -/
inductive Copied (foo c : String) (tests : List (String × Bool)) : Expr → Expr → Prop
  | builtIn {name : String} {t : ValueType} (ht : builtInFields name = some t) (hname : name ≠ c) :
      Copied foo c tests (.fieldRef name true t) (.fieldRef name true t)
  | untyped : Copied foo c tests (.fieldRef foo false .dynamic) (copyOf c)
  | part {t : ValueType} (ht : t.attributeType.isSome = true) :
      Copied foo c tests (.fieldRef foo false t) (.partOf (copyOf c) t)
  | contains {pattern : String} {caseSensitive : Bool} (h : (pattern, caseSensitive) ∈ tests) :
      Copied foo c tests (.textMatch .contains (.attributeText foo) pattern caseSensitive)
        (.textMatch .contains (.partOf (copyOf c) .string) pattern caseSensitive)
  | jsonValueText {x x' : Expr} (hx : Copied foo c tests x x') :
      Copied foo c tests (.jsonValueText x) (.jsonValueText x')
  | partOf {x x' : Expr} {t : ValueType} (hx : Copied foo c tests x x') :
      Copied foo c tests (.partOf x t) (.partOf x' t)
  | literal {l : Literal} : Copied foo c tests (.literal l) (.literal l)
  | compare {x x' y y' : Expr} {op : CompareOp} (hx : Copied foo c tests x x')
      (hy : Copied foo c tests y y') : Copied foo c tests (.compare x op y) (.compare x' op y')
  | textMatch {op : MatchOp} {x x' : Expr} {pattern : String} {caseSensitive : Bool}
      (hx : Copied foo c tests x x') :
      Copied foo c tests (.textMatch op x pattern caseSensitive) (.textMatch op x' pattern caseSensitive)
  | isEmpty {x x' : Expr} (hx : Copied foo c tests x x') : Copied foo c tests (.isEmpty x) (.isEmpty x')
  | and {x x' y y' : Expr} (hx : Copied foo c tests x x') (hy : Copied foo c tests y y') :
      Copied foo c tests (.and x y) (.and x' y')
  | or {x x' y y' : Expr} (hx : Copied foo c tests x x') (hy : Copied foo c tests y y') :
      Copied foo c tests (.or x y) (.or x' y')
  | not {x x' : Expr} (hx : Copied foo c tests x x') : Copied foo c tests (.not x) (.not x')
  | arith {op : ArithOp} {x x' y y' : Expr} {t : ValueType} (hx : Copied foo c tests x x')
      (hy : Copied foo c tests y y') : Copied foo c tests (.arith op x y t) (.arith op x' y' t)
  | negative {x x' : Expr} (hx : Copied foo c tests x x') :
      Copied foo c tests (.negative x) (.negative x')
  | call {fn : ScalarFunction} {args args' : List Expr} {t : ValueType}
      (hargs : AllCopied foo c tests args args') :
      Copied foo c tests (.call fn args t) (.call fn args' t)
  | parsedJSON {x x' : Expr} (hx : Copied foo c tests x x') :
      Copied foo c tests (.parsedJSON x) (.parsedJSON x')
  | member {x x' : Expr} {path : List PathStep} (hx : Copied foo c tests x x') :
      Copied foo c tests (.member x path) (.member x' path)

inductive AllCopied (foo c : String) (tests : List (String × Bool)) : List Expr → List Expr → Prop
  | nil : AllCopied foo c tests [] []
  | cons {x x' : Expr} {xs xs' : List Expr} (hx : Copied foo c tests x x')
      (hxs : AllCopied foo c tests xs xs') : AllCopied foo c tests (x :: xs) (x' :: xs')

end

variable {foo c : String} {tests : List (String × Bool)} {x y : Expr}

/-- A copy has the type of what it copies. -/
theorem Copied.typ_eq : ∀ {x y : Expr}, Copied foo c tests x y → y.typ = x.typ
  | _, _, .negative hx => hx.typ_eq
  | _, _, .builtIn _ _ | _, _, .untyped | _, _, .part _ | _, _, .contains _ | _, _, .jsonValueText _
  | _, _, .partOf _ | _, _, .literal | _, _, .compare _ _ | _, _, .textMatch _ | _, _, .isEmpty _
  | _, _, .and _ _ | _, _, .or _ _ | _, _, .not _ | _, _, .arith _ _ | _, _, .call _
  | _, _, .parsedJSON _ | _, _, .member _ => rfl

/-- A literal is copied as itself. -/
theorem Copied.of_literal {l : Literal} (h : Copied foo c tests (.literal l) y) : y = .literal l := by
  cases h
  rfl

/-- Only a literal is copied as a literal. -/
theorem Copied.to_literal {l : Literal} (h : Copied foo c tests x (.literal l)) : x = .literal l := by
  cases h
  rfl

/-- A copy is JSON text where the original is. -/
theorem Copied.isJSONValue_eq (h : Copied foo c tests x y) : isJSONValue y = isJSONValue x := by
  cases h <;> rfl

/-- Reading a copy as a type is a copy of reading the original so. -/
theorem Copied.typed (h : Copied foo c tests x y) (want : ValueType) :
    Copied foo c tests (typed x want) (typed y want) := by
  unfold LogQuery.typed
  rw [h.typ_eq]
  split
  · exact .partOf h
  · exact h

/-- A text match on a copy is a copy of the match on the original. -/
theorem Copied.match {text : TextOp} (h : Copied foo c tests x y) (pattern : String) :
    Copied foo c tests (text.match x pattern) (text.match y pattern) := by
  unfold TextOp.match
  simp only
  split
  · exact .not (.textMatch h)
  · exact .textMatch h

/-- A contains of the field's text and one of the column's text are copies, where the texts find
alike. -/
theorem Copied.matchText {text : TextOp} {pattern : String} (hop : text.op = .contains)
    (h : (pattern, text.caseSensitive) ∈ tests) :
    Copied foo c tests (text.match (.attributeText foo) pattern)
      (text.match (.partOf (copyOf c) .string) pattern) := by
  unfold TextOp.match
  rw [hop]
  simp only
  split
  · exact .not (.contains h)
  · exact .contains h

end Relation

section Compiling

/-- A stage of Logs, and the same after an Attribute is copied to a column. -/
structure CopyStates (foo c : String) (s t : CompilerState) : Prop where
  logs : s.scope = .logScope
  copied : t.scope = ⟨true, [⟨c, .dynamic, false⟩]⟩
  reads : ∀ a ∈ dynamicParts, ⟨a, foo⟩ ∈ t.readOrder

/-- Bounds that now() and bin_auto read alike. -/
def SameTimes (a b : Bounds) : Prop :=
  b.now = a.now ∧ autoBin (b.toTime - b.fromTime) = autoBin (a.toTime - a.fromTime)

/-- Whatever the first compiles to of Logs, the second compiles to after the copy, reading it. -/
def Copies (foo c : String) (tests : List (String × Bool)) (cx cx' : Compile) : Prop :=
  ∀ env b want, SameTimes env.bounds b →
    Relates (CopyStates foo c) (Copied foo c tests) (cx env want none)
      (cx' { env with bounds := b } want none)

variable {foo c : String} {tests : List (String × Bool)} {env : Env} {b : Bounds}
  {cx cx' cy cy' : Compile}

/-- One more field read keeps the states alike, as the original reads it too. -/
theorem read_left {t : AttributeType} {key : String} {s s' : CompilerState}
    (h : CopyStates foo c s s') :
    ∃ next, (read t key).run s = .ok ((), next) ∧ CopyStates foo c next s' := by
  refine ⟨_, rfl, ?_⟩
  simp only
  split
  · exact ⟨h.logs, h.copied, h.reads⟩
  · exact h

/-- More fields read keep the states alike. -/
theorem reads_left {ts : List AttributeType} {key : String} {s s' : CompilerState}
    (h : CopyStates foo c s s') :
    ∃ next, (ts.forM (read · key)).run s = .ok ((), next) ∧ CopyStates foo c next s' := by
  induction ts generalizing s with
  | nil => exact ⟨s, rfl, h⟩
  | cons t ts ih =>
    obtain ⟨next, hrun, hnext⟩ : ∃ next, (read t key).run s = .ok ((), next) ∧ CopyStates foo c next s' :=
      read_left h
    obtain ⟨last, hlast, hend⟩ := ih hnext
    refine ⟨last, ?_, hend⟩
    change (read t key >>= fun _ => ts.forM (read · key)).run s = .ok ((), last)
    rw [StateT.run_bind, hrun]
    exact hlast

/-- One more field named keeps the states alike. -/
theorem named_left {key : String} {s s' : CompilerState} (h : CopyStates foo c s s') :
    ∃ next, (named key).run s = .ok ((), next) ∧ CopyStates foo c next s' := by
  refine ⟨_, rfl, ?_⟩
  simp only
  split
  · exact h
  · exact ⟨h.logs, h.copied, h.reads⟩

/-- The Attribute's name, and its column's after the copy. -/
theorem name_copies {id c' : Syntax.Ident} (hfoo : builtInFields foo = none) (hc : nameOf c' = c)
    (hid : nameOf id = foo ∨ (builtInFields (nameOf id)).isSome ∧ nameOf id ≠ c) :
    Copies foo c tests (name id) (name (if nameOf id = foo then c' else id)) := by
  intro env b want hb
  have hname : ∀ id : Syntax.Ident,
      (if id.quoted then id.name else (fieldAliases id.name).getD id.name) = nameOf id := fun _ => rfl
  have hlogs : ∀ field, Scope.logScope.lookup field = none := fun _ => rfl
  unfold name
  simp only [hname]
  refine Relates.bind Relates.get fun s s' h => ?_
  rw [h.logs, h.copied, hlogs]
  have hfield : ¬(!Scope.logScope.logs) = true := by simp [Scope.logScope]
  simp only
  rw [if_neg hfield]
  by_cases heq : nameOf id = foo
  · have hlookup : (⟨true, [⟨c, .dynamic, false⟩]⟩ : Scope).lookup c = some ⟨c, .dynamic, false⟩ := by
      simp [Scope.lookup]
    rw [if_pos heq, hc, heq, hfoo, hlookup]
    simp only
    refine Relates.seq_left (fun s t h => named_left h) ?_
    cases hwant : want.attributeType with
    | some t =>
      have hsome : want.attributeType.isSome = true := by simp [hwant]
      exact Relates.seq_left (fun s t h => read_left h) (Relates.pure (.part hsome))
    | none =>
      exact Relates.seq_left (fun s t h => reads_left h) (Relates.pure .untyped)
  · obtain ⟨hbuiltIn, hne⟩ := hid.resolve_left heq
    obtain ⟨t, ht⟩ := Option.isSome_iff_exists.1 hbuiltIn
    have hlookup : (⟨true, [⟨c, .dynamic, false⟩]⟩ : Scope).lookup (nameOf id) = none := by
      simp [Scope.lookup, Ne.symm hne]
    rw [if_neg heq, ht, hlookup]
    simp only
    exact Relates.pure (.builtIn ht hne)

/-- A condition over the column is a copy of the one over the field. -/
theorem condition_copies {span span' : Span} (h : Copies foo c tests cx cx')
    (hb : SameTimes env.bounds b) :
    Relates (CopyStates foo c) (Copied foo c tests) (condition cx span env)
      (condition cx' span' { env with bounds := b }) := by
  unfold condition
  refine Relates.bind (h env b .any hb) fun x x' hx => ?_
  rw [hx.typ_eq]
  exact Relates.ite Iff.rfl (fun _ _ => errorAt_relates) fun _ _ => Relates.pure hx

/-- A sign or a negation over the column is a copy of the one over the field. -/
theorem unary_copies {span span' : Span} {op : Syntax.Sign} {e e' : Syntax.Expr}
    (he : numberLit? e' = numberLit? e) (h : Copies foo c tests cx cx') :
    Copies foo c tests (unary span op e cx) (unary span' op e' cx') := by
  intro env b want hb
  unfold unary
  rw [he]
  split
  · refine Relates.bind (numberLiteral_respects (R := CopyStates foo c)) fun l l' hl => ?_
    subst hl
    exact Relates.pure .literal
  · refine Relates.bind (h env b .number hb) fun x y hx => ?_
    have hrest : Relates (CopyStates foo c) (Copied foo c tests)
        (if x.typ != .number && x.typ != .timespan then
          errorAt span s!"{op.text} needs a number, not a {x.typ.text}"
        else if op == .plus then return x
        else return .negative x)
        (if y.typ != .number && y.typ != .timespan then
          errorAt span' s!"{op.text} needs a number, not a {y.typ.text}"
        else if op == .plus then return y
        else return .negative y) := by
      rw [hx.typ_eq]
      exact Relates.ite Iff.rfl (fun _ _ => errorAt_relates) fun _ _ =>
        Relates.ite Iff.rfl (fun _ _ => Relates.pure hx) fun _ _ => Relates.pure (.negative hx)
    cases hx
    case literal l =>
      cases l <;> cases op <;> first
        | exact hrest
        | exact Relates.pure .literal
    all_goals exact hrest

/-- A pattern is checked alike in both. -/
theorem checkRegex_copies {span span' : Span} {pattern : String} :
    Relates (CopyStates foo c) Eq (checkRegex env span pattern)
      (checkRegex { env with bounds := b } span' pattern) := by
  unfold checkRegex
  simp only
  split
  · exact errorAt_relates
  · exact Relates.pure rfl

/-- What a text operator tests is a copy, or the Attribute's text where the Attribute stands alone. -/
theorem textOperand_copies {span span' opSpan opSpan' : Span} {text : TextOp}
    (h : Copies foo c tests cx cx') (hb : SameTimes env.bounds b) {P : Prop}
    (halone : ∀ s s' t, s.scope = .logScope →
      (cx env .string none).run s = .ok (.fieldRef foo false t, s') → t = .string → P) :
    Relates (CopyStates foo c)
      (fun x x' => Copied foo c tests x x' ∨
        text.op = .contains ∧ x = .attributeText foo ∧ x' = .partOf (copyOf c) .string ∧ P)
      (textOperand span opSpan text cx env none)
      (textOperand span' opSpan' text cx' { env with bounds := b } none) := by
  unfold textOperand
  have hboth := Relates.and_left (P := fun x => ∀ t, x = .fieldRef foo false t → t = .string → P)
    (h env b .string hb) fun s s' x next hst hrun t hx ht =>
      halone s next t hst.logs (by rw [hrun, hx]) ht
  refine Relates.bind hboth fun x x' hx => ?_
  rw [hx.1.typ_eq]
  refine Relates.ite Iff.rfl (fun _ _ => errorAt_relates) fun htyp _ => ?_
  have htyp : x.typ = .string := by simpa using htyp
  obtain ⟨hx, halone⟩ := hx
  cases hx with
  | part ht =>
    simp only [Expr.typ] at htyp
    subst htyp
    simp only [copyOf, isJSONValue, Bool.false_and, Bool.false_eq_true, if_false]
    split
    next hop =>
      refine Relates.seq_left (fun s t h => read_left h) (Relates.pure (.inr ⟨?_, rfl, rfl, ?_⟩))
      · simpa using hop
      · exact halone _ rfl rfl
    · exact Relates.pure (.inl (.part ht))
  | partOf hx =>
    simp only [hx.isJSONValue_eq]
    split
    · exact Relates.pure (.inl (.jsonValueText hx))
    · exact Relates.pure (.inl (.partOf hx))
  | untyped => cases htyp
  | builtIn ht hname => exact Relates.pure (.inl (.builtIn ht hname))
  | jsonValueText hx => exact Relates.pure (.inl (.jsonValueText hx))
  | literal => exact Relates.pure (.inl .literal)
  | arith hx hy => exact Relates.pure (.inl (.arith hx hy))
  | negative hx => exact Relates.pure (.inl (.negative hx))
  | call hargs => exact Relates.pure (.inl (.call hargs))
  | _ => cases htyp

/-- A typed outline can no longer stand alone. -/
theorem typedOutline_alone {o : Outline} {want : ValueType} (h : o.alone = none) :
    (typedOutline o want).alone = none := by
  unfold typedOutline
  split
  · rfl
  · exact h

/-- A binary operation cannot stand alone. -/
theorem binaryOutline_alone {op : Syntax.BinaryOp} {x y : Outlines} {scope : Scope} {want : ValueType} :
    (binaryOutline op x y scope want).alone = none := by
  unfold binaryOutline
  split
  · rfl
  · rfl
  · split
    · rfl
    · rfl
    · unfold textOutline
      simp only
      split
      · split <;> rfl
      · rfl
    · rfl

/-- A call cannot stand alone. -/
theorem callOutline_alone {func : Syntax.Ident} {args : List Outlines} {scope : Scope} :
    (callOutline func args scope).alone = none := by
  unfold callOutline
  split <;> try rfl
  unfold namedOutline
  split <;> try rfl
  unfold scalarOutline
  simp only
  split <;> rfl

/-- An expression that is an Attribute alone is its name, and is read as asked unless it has a sign. -/
theorem isName_of_alone {scope : Scope} {t : ValueType} :
    ∀ (e : Syntax.Expr) (want : ValueType), (outline e scope want).alone = some (.fieldRef foo false t) →
      t = .number ∨ isName foo e = true ∧ t = if want.attributeType.isSome then want else .dynamic
  | .ident id, want, h => by
    simp only [outline, nameOutline] at h
    split at h
    · cases h
    simp only [nameRead] at h
    split at h
    · cases h
    split at h
    · cases h
    · simp only [Option.some.injEq, Expr.fieldRef.injEq, true_and] at h
      exact .inr ⟨by simp [isName, h.1], h.2.symm⟩
  | .param _, _, h => nomatch h
  | .basicLit _, _, h => nomatch h
  | .binary x opSpan op y, want, h => by
    rw [outline, binaryOutline_alone] at h
    cases h
  | .inList _ _ _ _ _ _ _, _, h => nomatch h
  | .unary _ op x, _, h => by
    simp only [outline, unaryOutline] at h
    split at h
    · cases h
    split at h
    · exact .inl ((isName_of_alone x .number h).elim id fun h => h.2)
    · cases h
  | .paren _ x _, want, h => isName_of_alone x want h
  | .call func _ args _, want, h => by
    simp only [outline] at h
    rw [typedOutline_alone callOutline_alone] at h
    cases h
  | .member x _ _, want, h => by
    simp only [outline, reachOutline] at h
    rw [typedOutline_alone rfl] at h
    cases h
  | .index x _ _ _, want, h => by
    simp only [outline, reachOutline] at h
    rw [typedOutline_alone rfl] at h
    cases h

/-- An expression asked for as a string that compiles to an Attribute is read as a number, which it has
a sign for, or is the Attribute's name, read as a string. -/
theorem isName_of_run {e : Syntax.Expr} {t : ValueType} {s s' : CompilerState}
    (hs : s.scope = .logScope)
    (hrun : (expr e env .string none).run s = .ok (.fieldRef foo false t, s')) :
    t = .number ∨ isName foo e = true ∧ t = .string := by
  have hdescribed := (expr_outlined e env .string none .logScope s _ s' hs hrun).1
  exact isName_of_alone e .string hdescribed.alone.symm

/-- A misplaced parameter is an error in both. -/
theorem misplaced_copies {α β : Type} {S : α → β → Prop} {p p' : Syntax.Param} :
    Relates (CopyStates foo c) S (misplaced env p) (misplaced { env with bounds := b } p') := by
  unfold misplaced
  exact Relates.ite Iff.rfl (fun _ _ => errorAt_relates) fun _ _ => errorAt_relates

variable {c' : Syntax.Ident} {x y : Syntax.Expr}

/-- A text test on the column is a copy of the one on the field, where its patterns find alike. -/
theorem textTest_copies {opSpan : Span} {text : TextOp} (values : String → List String)
    (h : Copies foo c tests (expr x) (expr (x.withColumn foo c')))
    (htests : text.op = .contains → isName foo x = true →
      ∀ pattern ∈ patternsOf values y, (pattern, text.caseSensitive) ∈ tests) :
    Copies foo c tests (textTest x opSpan text y (expr x))
      (textTest (x.withColumn foo c') opSpan text (y.withColumn foo c')
        (expr (x.withColumn foo c'))) := by
  intro env b want hb
  unfold textTest
  refine Relates.bind (textOperand_copies h hb (P := isName foo x = true)
    fun s s' t hs hrun ht => ((isName_of_run hs hrun).resolve_left (by simp [ht])).1)
      fun operand operand' ho => ?_
  have hmatch : ∀ pattern ∈ patternsOf values y,
      Copied foo c tests (text.match operand pattern) (text.match operand' pattern) := by
    intro pattern hpattern
    rcases ho with ho | ⟨hop, rfl, rfl, hname⟩
    · exact ho.match pattern
    · exact .matchText hop (htests hop hname pattern hpattern)
  cases y with
  | param p => exact misplaced_copies
  | basicLit lit =>
    obtain ⟨span, kind, value⟩ := lit
    cases kind with
    | string =>
      have hpure := hmatch value (by simp [patternsOf])
      exact Relates.ite Iff.rfl
        (fun _ _ => Relates.bind checkRegex_copies fun _ _ _ => Relates.pure hpure)
        fun _ _ => Relates.pure hpure
    | _ => exact errorAt_relates
  | _ => exact errorAt_relates

/-- A comparison over the column is a copy of the one over the field. -/
theorem compare_copies {span span' : Span} {x x' y y' : Syntax.Expr} {op : CompareOp}
    (hx : Copies foo c tests cx cx') (hy : Copies foo c tests cy cy') :
    Copies foo c tests (compare span x op y cx cy) (compare span' x' op y' cx' cy') := by
  intro env b want hb
  unfold compare
  refine Relates.bind (hy env b .any hb) fun y₀ y₀' hy₀ => ?_
  rw [hy₀.typ_eq]
  refine Relates.bind (hx env b _ hb) fun v v' hv => ?_
  rw [hv.typ_eq]
  have hrest : ∀ w w', Copied foo c tests w w' → Relates (CopyStates foo c) (Copied foo c tests) (do
      if v.typ == .dynamic && w.typ == .dynamic then
        if isIdent x && isIdent y && (← get).scope.logs then
          errorAt y.span "expected a value: a string, a number, true or false"
        else
          errorAt span "can't compare two values whose types aren't known; convert one, as in tostring(a) == tostring(b)"
      else if op != .eq && op != .ne && v.typ != w.typ then
        errorAt span ("can't compare a " ++ v.typ.text ++ " with a " ++ w.typ.text)
      else if op != .eq && op != .ne && v.typ == .bool then
        errorAt span "bools can only be compared with == and !="
      else return .compare v op w : Compiler Expr) (do
      if v.typ == .dynamic && w'.typ == .dynamic then
        if isIdent x' && isIdent y' && (← get).scope.logs then
          errorAt y'.span "expected a value: a string, a number, true or false"
        else
          errorAt span' "can't compare two values whose types aren't known; convert one, as in tostring(a) == tostring(b)"
      else if op != .eq && op != .ne && v.typ != w'.typ then
        errorAt span' ("can't compare a " ++ v.typ.text ++ " with a " ++ w'.typ.text)
      else if op != .eq && op != .ne && v.typ == .bool then
        errorAt span' "bools can only be compared with == and !="
      else return .compare v' op w' : Compiler Expr) := by
    intro w w' hw
    rw [hw.typ_eq]
    refine Relates.ite Iff.rfl (fun _ _ => ?_) fun _ _ => Relates.ite Iff.rfl
      (fun _ _ => errorAt_relates) fun _ _ => Relates.ite Iff.rfl (fun _ _ => errorAt_relates)
        fun _ _ => Relates.pure (.compare hv hw)
    refine Relates.bind Relates.get fun _ _ _ => ?_
    split <;> split <;> exact errorAt_relates
  exact Relates.ite Iff.rfl (fun _ _ => Relates.bind (hy env b _ hb) hrest) fun _ _ => hrest _ _ hy₀

/-- Arithmetic over the column is a copy of that over the field. -/
theorem arith_copies {span span' : Span} {op : ArithOp} (hx : Copies foo c tests cx cx')
    (hy : Copies foo c tests cy cy') :
    Copies foo c tests (arith span op cx cy) (arith span' op cx' cy') := by
  intro env b want hb
  unfold arith
  refine Relates.bind (hx env b .number hb) fun x x' hx => ?_
  rw [hx.typ_eq]
  refine Relates.bind (hy env b _ hb) fun y y' hy => ?_
  rw [hy.typ_eq]
  refine Relates.ite Iff.rfl (fun _ _ => Relates.pure (.arith hx hy)) fun _ _ => Relates.ite Iff.rfl
    (fun _ _ => ?_) fun _ _ => Relates.ite Iff.rfl (fun _ _ => Relates.pure (.arith hx hy))
      fun _ _ => errorAt_relates
  split
  · cases hx
    cases hy
    exact Relates.pure .literal
  next hnot =>
    split
    · exact (hnot _ _ hx.to_literal hy.to_literal).elim
    · exact Relates.pure (.arith hx hy)

/-- One element of an in over the column is a copy of the one over the field. -/
theorem inElem_copies {span span' : Span} {so so' : Option Expr} (hx : Copies foo c tests cx cx')
    (hy : Copies foo c tests cy cy') (hb : SameTimes env.bounds b)
    (hso : Option.Rel (Copied foo c tests) so so') :
    Relates (CopyStates foo c) (Copied foo c tests) (inElem cx span cy env none so)
      (inElem cx' span' cy' { env with bounds := b } none so') := by
  unfold inElem
  refine Relates.bind (hy env b .any hb) fun value value' hvalue => ?_
  split
  · obtain rfl := hvalue.of_literal
    refine Relates.bind (hx env b _ hb) fun v v' hv => ?_
    cases hso with
    | none => exact Relates.pure (.compare hv .literal)
    | some hm => exact Relates.pure (.or hm (.compare hv .literal))
  next hnot =>
    split
    · exact (hnot _ hvalue.to_literal).elim
    · exact errorAt_relates

/-- Arguments that compile to copies, each in its place. -/
def ArgsCopy (foo c : String) (tests : List (String × Bool)) (args args' : List Arg) : Prop :=
  List.Forall₂ (fun arg arg' => Copies foo c tests arg.2 arg'.2) args args'

variable {args args' : List Arg}

/-- More elements of an in over the column are copies of those over the field. -/
theorem inElems_copies (hx : Copies foo c tests cx cx') (hargs : ArgsCopy foo c tests args args')
    (hb : SameTimes env.bounds b) {m m' : Expr} (hm : Copied foo c tests m m') :
    Relates (CopyStates foo c) (Copied foo c tests) (inElems cx env none m args)
      (inElems cx' { env with bounds := b } none m' args') := by
  induction hargs generalizing m m' with
  | nil => exact Relates.pure hm
  | cons harg _ ih => exact Relates.bind (inElem_copies hx harg hb (.some hm)) fun _ _ hm => ih hm

/-- An in over the column is a copy of the one over the field. -/
theorem inList_copies {negated : Bool} {first first' : Span × Compile}
    (hx : Copies foo c tests cx cx') (hfirst : Copies foo c tests first.2 first'.2)
    (hargs : ArgsCopy foo c tests args args') :
    Copies foo c tests (inList negated cx first args) (inList negated cx' first' args') := by
  intro env b want hb
  unfold inList
  refine Relates.bind (inElem_copies hx hfirst hb .none) fun m m' hm => ?_
  refine Relates.bind (inElems_copies hx hargs hb hm) fun all all' hall => Relates.pure ?_
  split
  · exact .not hall
  · exact hall

/-- A binary operation over the column is a copy of the one over the field. -/
theorem binary_copies {opSpan : Span} {op : Syntax.BinaryOp} (values : String → List String)
    (hx : Copies foo c tests (expr x) (expr (x.withColumn foo c')))
    (hy : Copies foo c tests (expr y) (expr (y.withColumn foo c')))
    (htests : ∀ test ∈ ownTests values foo x op y, test ∈ tests) :
    Copies foo c tests (binary x opSpan op y (expr x) (expr y))
      (binary (x.withColumn foo c') opSpan op (y.withColumn foo c') (expr (x.withColumn foo c'))
        (expr (y.withColumn foo c'))) := by
  intro env b want hb
  unfold binary
  simp only
  split
  · exact Relates.bind (condition_copies hx hb) fun _ _ hv => Relates.bind (condition_copies hy hb)
      fun _ _ hw => Relates.pure (.and hv hw)
  · exact Relates.bind (condition_copies hx hb) fun _ _ hv => Relates.bind (condition_copies hy hb)
      fun _ _ hw => Relates.pure (.or hv hw)
  · split
    · exact arith_copies hx hy env b want hb
    · exact compare_copies hx hy env b want hb
    next text htext _ _ =>
      refine textTest_copies values hx (fun hop hname pattern hpattern => htests _ ?_) env b want hb
      simp only [ownTests, htext, hop, hname]
      exact List.mem_map_of_mem hpattern
    · exact errorAt_relates

/-- A step into the column is a copy of the step into the field. -/
theorem pathStep_copies {span span' : Span} (h : Copies foo c tests cx cx')
    (hb : SameTimes env.bounds b) :
    Relates (CopyStates foo c) Eq (pathStep span cx env) (pathStep span' cx' { env with bounds := b }) := by
  unfold pathStep
  refine Relates.bind (h env b .any hb) fun x x' hx => ?_
  split
  · obtain rfl := hx.of_literal
    exact Relates.pure rfl
  · obtain rfl := hx.of_literal
    exact Relates.ite Iff.rfl (fun _ _ => Relates.pure rfl) fun _ _ => errorAt_relates
  next hstring hnumber =>
    split
    · exact (hstring _ hx.to_literal).elim
    · exact (hnumber _ hx.to_literal).elim
    · exact errorAt_relates

/-- A member of the column is a copy of the member of the field. -/
theorem reach_copies {accessor accessor' : Span} {step step' : Env → Compiler PathStep}
    (h : Copies foo c tests cx cx')
    (hstep : ∀ env b, SameTimes env.bounds b →
      Relates (CopyStates foo c) Eq (step env) (step' { env with bounds := b })) :
    Copies foo c tests (reach accessor cx step) (reach accessor' cx' step') := by
  intro env b want hb
  unfold reach
  refine Relates.bind (h env b .any hb) fun x x' hx => ?_
  rw [hx.typ_eq]
  refine Relates.ite Iff.rfl (fun _ _ => errorAt_relates) fun _ _ => ?_
  refine Relates.bind (hstep env b hb) fun step step' heq => ?_
  subst heq
  split
  · cases hx with
    | member hx => exact Relates.pure (Copied.typed (.member hx) want)
  next hnot =>
    split
    · cases hx with
      | member hx => exact (hnot _ _ rfl).elim
    · exact Relates.pure (Copied.typed (.member hx) want)

end Compiling

section Calls

variable {foo c : String} {tests : List (String × Bool)} {env : Env} {b : Bounds} {args args' : List Arg}
  {span span' : Span}

/-- A timespan argument is read alike in both. -/
theorem timespan_copies {arg arg' : Arg} (h : Copies foo c tests arg.2 arg'.2)
    (hb : SameTimes env.bounds b) :
    Relates (CopyStates foo c) Eq (timespan arg env) (timespan arg' { env with bounds := b }) := by
  unfold timespan
  refine Relates.bind (h env b .timespan hb) fun x x' hx => ?_
  split
  · obtain rfl := hx.of_literal
    exact Relates.pure rfl
  next hnot =>
    split
    · exact (hnot _ hx.to_literal).elim
    · exact errorAt_relates

/-- Arguments that are copies, each with its place. -/
def ValuesCopied (foo c : String) (tests : List (String × Bool)) (xs xs' : List (Expr × Span)) : Prop :=
  List.Forall₂ (fun x x' => Copied foo c tests x.1 x'.1) xs xs'

/-- The arguments of a function over the column are copies of those over the field. -/
theorem scalarArgs_copies {types : List ValueType} (h : ArgsCopy foo c tests args args')
    (hb : SameTimes env.bounds b) :
    Relates (CopyStates foo c) (ValuesCopied foo c tests) (scalarArgs env none types args)
      (scalarArgs { env with bounds := b } none types args') := by
  induction types generalizing args args' with
  | nil => exact Relates.pure .nil
  | cons t ts ih =>
    cases h with
    | nil => exact Relates.pure .nil
    | cons harg h =>
      exact Relates.bind (harg env b t hb) fun _ _ hx =>
        Relates.bind (ih h) fun _ _ hxs => Relates.pure (.cons hx hxs)

variable {xs xs' : List (Expr × Span)}

/-- A function that needs a type of its argument needs it in both. -/
theorem needs_copies {name : String} {t : ValueType} {x x' : Expr × Span} {what : String}
    (h : Copied foo c tests x.1 x'.1) :
    Relates (CopyStates foo c) Eq (needs name t x what) (needs name t x' what) := by
  unfold needs
  rw [h.typ_eq]
  exact Relates.ite Iff.rfl (fun _ _ => errorAt_relates) fun _ _ => Relates.pure rfl

/-- A copy is a size where the original is. -/
theorem isSize_copied {x x' : Expr} (h : Copied foo c tests x x') : isSize x' = isSize x := by
  cases h <;> rfl

/-- A copy is a group where the original is. -/
theorem isGroup_copied {x x' : Expr} (h : Copied foo c tests x x') : isGroup x' = isGroup x := by
  cases h <;> rfl

/-- A call is checked alike in both. -/
theorem checkCall_copies {name : String} {fn : Option ScalarFunction}
    (h : ValuesCopied foo c tests xs xs') :
    Relates (CopyStates foo c) Eq (checkCall env name span fn xs)
      (checkCall { env with bounds := b } name span' fn xs') := by
  have hbin : ∀ {x x' size size' : Expr × Span}, Copied foo c tests x.1 x'.1 →
      Copied foo c tests size.1 size'.1 → Relates (CopyStates foo c) Eq
        (checkCall.binArgs name span x size) (checkCall.binArgs name span' x' size') := by
    intro x x' size size' hx hsize
    unfold checkCall.binArgs
    rw [hx.typ_eq, hsize.typ_eq, isSize_copied hsize]
    exact Relates.ite Iff.rfl (fun _ _ => errorAt_relates) fun _ _ =>
      Relates.ite Iff.rfl (fun _ _ => errorAt_relates) fun _ _ => Relates.pure rfl
  have hextract : ∀ {regex regex' group group' x x' : Expr × Span}, Copied foo c tests regex.1 regex'.1 →
      Copied foo c tests group.1 group'.1 → Copied foo c tests x.1 x'.1 →
      Relates (CopyStates foo c) Eq (checkCall env name span (some .extract) [regex, group, x])
        (checkCall { env with bounds := b } name span' (some .extract) [regex', group', x']) := by
    intro regex regex' group group' x x' hregex hgroup hx
    have hrest : Relates (CopyStates foo c) Eq
        (do
          if !isGroup group.1 then
            errorAt group.2 "extract needs its capture group written in the Query, as a whole number of 0 or more"
          needs name .string x "takes a string" : Compiler Unit)
        (do
          if !isGroup group'.1 then
            errorAt group'.2 "extract needs its capture group written in the Query, as a whole number of 0 or more"
          needs name .string x' "takes a string" : Compiler Unit) := by
      rw [isGroup_copied hgroup]
      exact Relates.ite Iff.rfl
        (fun _ _ => Relates.bind errorAt_relates fun _ _ (_ : True) => needs_copies hx)
        fun _ _ => needs_copies hx
    obtain ⟨regex, regexSpan⟩ := regex
    obtain ⟨regex', regexSpan'⟩ := regex'
    have herror : ∀ m, Relates (CopyStates foo c) (fun _ _ => True)
        (errorAt regexSpan m : Compiler Unit) (errorAt regexSpan' m : Compiler Unit) :=
      fun m => errorAt_relates
    cases hregex
    case literal l =>
      cases l
      case string pattern => exact Relates.bind checkRegex_copies fun _ _ _ => hrest
      all_goals exact Relates.bind (herror _) fun _ _ _ => hrest
    all_goals exact Relates.bind (herror _) fun _ _ _ => hrest
  rcases fn with _ | fn
  · cases h with
    | nil => exact Relates.pure rfl
    | cons hx _ => exact needs_copies hx
  rcases h with _ | ⟨hx, _ | ⟨hy, _ | ⟨hz, _ | _⟩⟩⟩ <;> cases fn <;> first
    | exact Relates.pure rfl
    | exact needs_copies hx
    | exact hbin hx hy
    | exact hextract hx hy hz
    | exact Relates.bind (needs_copies hx) fun _ _ _ => Relates.pure rfl
    | exact Relates.bind (needs_copies hx) fun _ _ _ => needs_copies hy
    | exact Relates.bind (needs_copies hx) fun _ _ _ =>
        Relates.bind (needs_copies hy) fun _ _ _ => needs_copies hz

/-- A function over the column is a copy of the one over the field. -/
theorem scalar_copies {name : String} {f : Function} (h : ArgsCopy foo c tests args args')
    (hb : SameTimes env.bounds b) :
    Relates (CopyStates foo c) (Copied foo c tests) (scalar name span f args env none)
      (scalar name span' f args' { env with bounds := b } none) := by
  have hcopied : ∀ {xs xs'}, ValuesCopied foo c tests xs xs' →
      AllCopied foo c tests (xs.map Prod.fst) (xs'.map Prod.fst) := by
    intro xs xs' h
    induction h with
    | nil => exact .nil
    | cons hx _ ih => exact .cons hx ih
  unfold scalar
  rw [h.length_eq]
  refine Relates.ite Iff.rfl (fun _ _ => ?_) fun _ _ => ?_
  · split <;> exact errorAt_relates
  · refine Relates.bind (scalarArgs_copies h hb) fun xs xs' hxs => ?_
    refine Relates.bind (checkCall_copies hxs) fun _ _ _ => ?_
    cases hfn : f.fn with
    | some fn =>
      have htype : resultType fn (xs'.map Prod.fst) = resultType fn (xs.map Prod.fst) := by
        cases hxs with
        | nil => rfl
        | cons hx _ => cases fn <;> simp [resultType, hx.typ_eq]
      simp only [htype]
      exact Relates.pure (.call (hcopied hxs))
    | none =>
      cases hxs with
      | nil => exact errorAt_relates
      | cons hx _ => exact Relates.pure (.parsedJSON hx)

/-- A test of emptiness over the column is a copy of the one over the field. -/
theorem emptyTest_copies {name : String} {negated : Bool} (h : ArgsCopy foo c tests args args')
    (hb : SameTimes env.bounds b) :
    Relates (CopyStates foo c) (Copied foo c tests) (emptyTest name span negated args env none)
      (emptyTest name span' negated args' { env with bounds := b } none) := by
  unfold emptyTest
  rcases h with _ | ⟨harg, _ | _⟩
  · exact errorAt_relates
  · refine Relates.bind (harg env b .any hb) fun x x' hx => Relates.pure ?_
    split
    · exact .not (.isEmpty hx)
    · exact .isEmpty hx
  · exact errorAt_relates

/-- A bin of the column is a copy of the bin of the field. -/
theorem binAuto_copies (h : ArgsCopy foo c tests args args') (hb : SameTimes env.bounds b) :
    Relates (CopyStates foo c) (Copied foo c tests) (binAuto span args env none)
      (binAuto span' args' { env with bounds := b } none) := by
  unfold binAuto
  rcases h with _ | ⟨harg, _ | _⟩
  · exact errorAt_relates
  · refine Relates.bind (harg env b .any hb) fun x x' hx => ?_
    simp only
    rw [hx.typ_eq, hb.2]
    exact Relates.ite Iff.rfl (fun _ _ => errorAt_relates) fun _ _ =>
      Relates.pure (.call (.cons hx (.cons .literal .nil)))
  · exact errorAt_relates

/-- The time of now() is one in both. -/
theorem now_eq (hb : SameTimes env.bounds b) : now { env with bounds := b } = now env := by
  simp [now, hb.1]

/-- What a call of no function of the language's own gives outside summarize. -/
private def callNamed (span : Span) (func : Syntax.Ident) (name : String) (args : List Arg) (env : Env) :
    Compiler Expr :=
  match emptyTests name, aggregateFunctions name, scalarFunctions name with
  | some negated, _, _ => emptyTest name span negated args env none
  | _, some _, _ => errorAt func.span s!"{name}() only works in summarize"
  | _, _, some f => scalar name span f args env none
  | _, _, _ => errorAt func.span s!"unknown function {env.lib.quote name}"

/-- A call over the column, whatever its function, is a copy of the one over the field. -/
theorem callOf_copies {func : Syntax.Ident} (h : ArgsCopy foo c tests args args')
    (hb : SameTimes env.bounds b) :
    Relates (CopyStates foo c) (Copied foo c tests) (callOf span func args env none)
      (callOf span' func args' { env with bounds := b } none) := by
  have hnamed : ∀ name, Relates (CopyStates foo c) (Copied foo c tests) (callNamed span func name args env)
      (callNamed span' func name args' { env with bounds := b }) := by
    intro name
    unfold callNamed
    split
    · exact emptyTest_copies h hb
    · exact errorAt_relates
    · exact scalar_copies h hb
    · exact errorAt_relates
  have hnow : Relates (CopyStates foo c) (Copied foo c tests)
      (return .literal (.dateTime (now env)) : Compiler Expr)
      (return .literal (.dateTime (now { env with bounds := b })) : Compiler Expr) := by
    rw [now_eq hb]
    exact Relates.pure .literal
  have hago : ∀ arg arg' : Arg, Copies foo c tests arg.2 arg'.2 →
      Relates (CopyStates foo c) (Copied foo c tests)
        (do return .literal (.dateTime (now env - (← timespan arg env))) : Compiler Expr)
        (do return .literal (.dateTime (now { env with bounds := b } -
          (← timespan arg' { env with bounds := b }))) : Compiler Expr) := by
    intro arg arg' harg
    rw [now_eq hb]
    refine Relates.bind (timespan_copies harg hb) fun d d' hd => ?_
    subst hd
    exact Relates.pure .literal
  have hnot : ∀ arg arg' : Arg, Copies foo c tests arg.2 arg'.2 →
      Relates (CopyStates foo c) (Copied foo c tests)
        (do return .not (← condition arg.2 arg.1 { env with inNot := true }) : Compiler Expr)
        (do return .not (← condition arg'.2 arg'.1 { env with bounds := b, inNot := true }) :
          Compiler Expr) := fun arg arg' harg =>
    Relates.bind (@condition_copies foo c tests { env with inNot := true } b _ _ arg.1 arg'.1 harg hb)
      fun _ _ hx => Relates.pure (.not hx)
  have hauto : Relates (CopyStates foo c) (Copied foo c tests) (binAuto span args env none)
      (binAuto span' args' { env with bounds := b } none) := binAuto_copies h hb
  unfold callOf
  generalize func.name = name
  split
  case h_1 =>
    rcases h with _ | ⟨harg, _ | _⟩
    exact hnot _ _ harg
  case h_3 =>
    cases h
    exact hnow
  case h_5 =>
    rcases h with _ | ⟨harg, _ | _⟩
    exact hago _ _ harg
  case h_7 => exact hauto
  case h_8 =>
    convert hnamed _ using 1
    all_goals first
      | rfl
      | clear hnamed hnow hago hnot hauto
        split
        case h_8 => rfl
        all_goals simp_all
  all_goals
    clear hnamed hnow hago hnot hauto
    rcases h with _ | ⟨_, _ | ⟨_, _⟩⟩ <;> first
      | exact errorAt_relates
      | simp_all

/-- A call, with what it says of itself, copied. -/
theorem call_copies {func : Syntax.Ident} (h : ArgsCopy foo c tests args args') :
    Copies foo c tests (call span func args) (call span' func args') := fun _ _ want hb =>
  Relates.bind (callOf_copies h hb) fun _ _ hx => Relates.pure (hx.typed want)

mutual

/-- An expression over an Attribute compiles after the copy, with the column in place of the Attribute,
to the same read from the column. -/
theorem expr_copies {c' : Syntax.Ident} {values : String → List String}
    (hfoo : builtInFields foo = none) (hc : nameOf c' = c) :
    ∀ e : Syntax.Expr, Over foo c e → containsTests values foo e ⊆ tests →
      Copies foo c tests (expr e) (expr (e.withColumn foo c'))
  | .ident id, hover, _ => name_copies hfoo hc (hover _ (by simp [Syntax.Expr.names]))
  | .param p, _, _ => fun _ _ _ _ => misplaced_copies
  | .basicLit lit, _, _ => fun env b _ _ =>
    Relates.bind (literal_respects (R := CopyStates foo c)) fun _ _ hl => Relates.pure (hl ▸ .literal)
  | .binary x opSpan op y, hover, htests => by
    simp only [Over, Syntax.Expr.names, List.forall_mem_append] at hover
    simp only [containsTests, List.append_subset] at htests
    exact binary_copies values (expr_copies hfoo hc x hover.1 htests.1.2)
      (expr_copies hfoo hc y hover.2 htests.2) fun test htest => htests.1.1 htest
  | .inList x _ _ _ first rest _, hover, htests => by
    simp only [Over, Syntax.Expr.names, List.forall_mem_append] at hover
    simp only [containsTests, List.append_subset] at htests
    exact inList_copies (expr_copies hfoo hc x hover.1.1 htests.1.1)
      (expr_copies hfoo hc first hover.1.2 htests.1.2) (exprs_copies hfoo hc rest hover.2 htests.2)
  | .unary _ _ x, hover, htests => by
    refine unary_copies ?_ (expr_copies hfoo hc x hover htests)
    cases x <;> rfl
  | .paren _ x _, hover, htests => expr_copies hfoo hc x hover htests
  | .call _ _ args _, hover, htests => call_copies (exprs_copies hfoo hc args hover htests)
  | .member x _ _, hover, htests =>
    reach_copies (expr_copies hfoo hc x hover htests) fun _ _ _ => Relates.pure rfl
  | .index x _ index _, hover, htests => by
    simp only [Over, Syntax.Expr.names, List.forall_mem_append] at hover
    simp only [containsTests, List.append_subset] at htests
    exact reach_copies (expr_copies hfoo hc x hover.1 htests.1) fun _ _ hb =>
      pathStep_copies (expr_copies hfoo hc index hover.2 htests.2) hb

/-- Each of some expressions over the column is a copy of the one over the field. -/
theorem exprs_copies {c' : Syntax.Ident} {values : String → List String}
    (hfoo : builtInFields foo = none) (hc : nameOf c' = c) :
    ∀ es : List Syntax.Expr, (∀ name ∈ allNames es, name = foo ∨ (builtInFields name).isSome ∧ name ≠ c) →
      allContainsTests values foo es ⊆ tests →
      ArgsCopy foo c tests (exprs es) (exprs (allWithColumn foo c' es))
  | [], _, _ => .nil
  | x :: rest, hover, htests => by
    simp only [allNames, List.forall_mem_append] at hover
    simp only [allContainsTests, List.append_subset] at htests
    exact .cons (expr_copies hfoo hc x hover.1 htests.1) (exprs_copies hfoo hc rest hover.2 htests.2)

end

end Calls

section Predicates

variable {foo c : String} {c' : Syntax.Ident} {tests : List (String × Bool)} {env : Env} {b : Bounds}

variable {text : Option TextOp} {negated : Bool} {side side' : Compile} {x x' : Expr}
  {values : List String}

/-- A condition and the same after the copy, or both true of every row. -/
def TestCopied (foo c : String) (tests : List (String × Bool)) (x x' : Expr) : Prop :=
  Copied foo c tests x x' ∨ x = .always ∧ x' = .always

/-- A test that does not always hold is a copy of its original. -/
theorem TestCopied.copied {x x' : Expr} (h : TestCopied foo c tests x x') (hx : ¬x.isAlways = true) :
    Copied foo c tests x x' := by
  rcases h with h | ⟨rfl, rfl⟩
  · exact h
  · exact absurd rfl hx

/-- A filter of a side that is no parameter itself, as it is compiled. -/
theorem filter_eq {opSpan : Span} {op : Syntax.BinaryOp} {p : Syntax.Param} {side : Syntax.Expr}
    (h : ¬∃ q, side = .param q) :
    filter env opSpan op p side = (do
      let values ← valuesOf env p
      let before ← get
      let text := textOp? op
      let x ← match text with
        | some text => textOperand side.span opSpan text (expr side) env none
        | none => expr side env .string none
      let negated := op == .ne || (text.map TextOp.negated).getD false
      match values with
      | [] =>
        modify fun s => { s with readOrder := before.readOrder, names := before.names }
        return .always
      | v :: rest =>
        let m ← filterValue env text negated (expr side) x v
        filterValues env text negated (expr side) x m rest) := by
  unfold filter
  split
  · exact absurd ⟨_, rfl⟩ h
  · rfl

end Predicates

end SolidTrace.LogQuery
