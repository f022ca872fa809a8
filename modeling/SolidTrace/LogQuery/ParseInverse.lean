import SolidTrace.LogQuery.ParseSound

/-!
# Parsing inverts writing

A well-formed tree's tokens, followed by what ends an expression, are read as that tree: parsing is
the inverse of writing, and no two well-formed trees are written alike.
-/

namespace SolidTrace.LogQuery

section Complete

variable {src : Source} {expr : ℕ → List Token → Parsed Syntax.Expr} {n : ℕ}

/-- The tokens do not go on with what reaches into a value, or with a call's parenthesis. -/
def Ends : List Token → Prop
  | [] => True
  | tok :: _ => tok.kind ≠ .dot ∧ tok.kind ≠ .quotedIdentifier ∧ tok.kind ≠ .lbracket ∧
      tok.kind ≠ .lparen

/-- What ends an expression: the end, a pipe, a comma or a closing bracket. -/
def Closed : List Token → Prop
  | [] => True
  | tok :: _ => tok.kind = .pipe ∨ tok.kind = .comma ∨ tok.kind = .rparen ∨ tok.kind = .rbracket

/-- What closes an expression ends its operands. -/
theorem Closed.ends {ts : List Token} (h : Closed ts) : Ends ts := by
  cases ts with
  | nil => trivial
  | cons tok ts => rcases h with h | h | h | h <;> simp [Ends, h]

/-- What closes an expression stops it at every strength. -/
theorem Closed.stops {ts : List Token} (h : Closed ts) (m : ℕ) : StopsBelow m ts := by
  intro op span after hop
  cases ts with
  | nil => simp [binaryOperator] at hop
  | cons tok ts => rcases h with h | h | h | h <;> simp [binaryOperator, h, symbolOperator] at hop

/-- An operator that is written is read. -/
theorem SpellsOperator.read {op : Operator} {span : Span} {os : List Token}
    (h : SpellsOperator op span os) (rest : List Token) :
    binaryOperator (os ++ rest) = some (op, span, rest) ∧ Ends (os ++ rest) ∧ os ≠ [] := by
  cases h with
  | @symbol kind op h _ value =>
    cases kind <;> cases h <;> simp [binaryOperator, symbolOperator, Ends]
  | word h => simp [binaryOperator, h, Ends]
  | negated h bang span text htouch => simp [binaryOperator, h, htouch, Ends]
  | matchesRegex => simp [binaryOperator, wordOperators, Ends]

/-- A parser of expressions that reads every well-formed one of fewer tokens than some. -/
def Complete (src : Source) (expr : ℕ → List Token → Parsed Syntax.Expr) (n : ℕ) : Prop :=
  ∀ m x ts rest, (ts ++ rest).length < n → wellFormed x m → spells src x ts → Ends rest →
    StopsBelow m rest → expr m (ts ++ rest) = .ok (x, rest)

/-- A nested expression is read up to what closes it. -/
theorem Complete.closed (h : Complete src expr n) {x : Syntax.Expr} {ts rest : List Token}
    (hlength : (ts ++ rest).length < n) (hwf : wellFormed x 0) (hx : spells src x ts)
    (hrest : Closed rest) : expr 0 (ts ++ rest) = .ok (x, rest) :=
  h 0 x ts rest hlength hwf hx hrest.ends (hrest.stops 0)

/-- A dotted name that is spelled is read. -/
theorem dottedName_complete {name whole : String} {span all : Span} {parts rest : List Token}
    (h : SpellsParts src name span whole all parts) (hrest : ¬touchingDot all rest) :
    dottedName src name span (parts ++ rest) = .ok (.ident ⟨whole, all, false⟩, rest) := by
  induction h with
  | none name span =>
    cases rest with
    | nil => rfl
    | cons dot rest =>
      simp only [List.nil_append, dottedName]
      exact if_neg hrest
  | part hdot htouch hpart htouch' _ ih =>
    simp only [List.cons_append, dottedName, if_pos (And.intro hdot htouch),
      if_pos (And.intro hpart htouch')]
    exact ih hrest

/-- Arguments after a comma, to the closing parenthesis, close the one before them. -/
theorem spellsRest_closed {others : List Syntax.Expr} {rparen : Span} {rs : List Token}
    (h : spellsRest src others rparen rs) (rest : List Token) : Closed (rs ++ rest) := by
  cases others with
  | nil =>
    obtain ⟨value, rfl⟩ := h
    exact .inr (.inr (.inl rfl))
  | cons e es =>
    obtain ⟨span, value, xs, rs, rfl, -⟩ := h
    exact .inr (.inl rfl)

/-- Elements that are spelled are read. -/
theorem elements_complete (hexpr : Complete src expr n) {others : List Syntax.Expr}
    {rparen : Span} {first : Syntax.Expr} {fs rs rest : List Token} {k : ℕ}
    (hlength : (fs ++ (rs ++ rest)).length < n) (hk : (fs ++ (rs ++ rest)).length ≤ k)
    (hfirst : spells src first fs) (hothers : spellsRest src others rparen rs)
    (hwf : wellFormed first 0) (hall : allWellFormed others) :
    elements src expr k (fs ++ (rs ++ rest)) = .ok ((first, others, rparen), rest) := by
  induction others generalizing first fs rs k with
  | nil =>
    have hx := hexpr.closed hlength hwf hfirst (spellsRest_closed hothers rest)
    obtain ⟨value, rfl⟩ := hothers
    cases k with
    | zero => simp at hk
    | succ k =>
      rw [elements, hx]
      rfl
  | cons e es ih =>
    have hx := hexpr.closed hlength hwf hfirst (spellsRest_closed hothers rest)
    obtain ⟨span, value, xs, rs, rfl, he, hes⟩ := hothers
    simp only [List.cons_append, List.append_assoc, List.length_append, List.length_cons] at hlength hk
    cases k with
    | zero => omega
    | succ k =>
      have hrest := @ih e xs rs k (by simp only [List.length_append]; omega)
        (by simp only [List.length_append]; omega) he hes hall.1 hall.2
      rw [elements, hx]
      simp only [List.cons_append, List.append_assoc, andThen_ok]
      rw [hrest]
      rfl

/-- Where an operand's tokens may end: a word's not before a dot that touches it or a call's
parenthesis. -/
def Continues (x : Syntax.Expr) (rest : List Token) : Prop :=
  isWord x = true → ¬touchingDot x.span rest ∧ ∀ tok ts, rest = tok :: ts → tok.kind ≠ .lparen

/-- What ends an operand does not go on with one. -/
theorem Ends.continues {x : Syntax.Expr} {rest : List Token} (h : Ends rest) : Continues x rest := by
  intro _
  cases rest with
  | nil => exact ⟨id, nofun⟩
  | cons tok ts =>
    refine ⟨fun hdot => h.1 hdot.1, ?_⟩
    rintro _ _ ⟨rfl, rfl⟩
    exact h.2.2.2

/-- A word that is no call and touches no dot is read alone. -/
theorem identExpr_word {first : Token} {rest : List Token} (hdot : ¬touchingDot first.span rest)
    (hlparen : ∀ tok ts, rest = tok :: ts → tok.kind ≠ .lparen) :
    identExpr src expr n first rest = wordExpr first rest := by
  cases rest with
  | nil => rfl
  | cons tok ts =>
    have hdot' : ¬(tok.kind = .dot ∧ tok.span.start = first.span.stop) := hdot
    rw [identExpr, if_neg hdot', if_neg (hlparen tok ts rfl)]

/-- A name that is spelled is read. -/
theorem operand_ident {id : Syntax.Ident} {ts rest : List Token} (h : spells src (.ident id) ts)
    (hrest : Continues (.ident id) rest) :
    operand src expr n (ts ++ rest) = .ok (.ident id, rest) := by
  obtain ⟨hdot, hlparen⟩ := hrest rfl
  obtain ⟨name, span, quoted⟩ := id
  unfold spells spellsIdent at h
  split at h
  next hquoted =>
    cases hquoted
    subst h
    rfl
  next hquoted =>
    simp only [Bool.not_eq_true] at hquoted
    cases hquoted
    obtain ⟨⟨kind, fspan, value⟩, parts, rfl, hkind, hparts, hword⟩ := h
    cases hkind
    change identExpr src expr n _ (parts ++ rest) = _
    cases hparts with
    | none =>
      obtain ⟨htrue, hfalse, hnot⟩ := hword rfl
      rw [List.nil_append, identExpr_word hdot hlparen]
      simp [wordExpr, htrue, hfalse, hnot]
    | part hd ht hp ht' hrest =>
      rw [List.cons_append, identExpr, if_pos ⟨hd, ht⟩]
      exact dottedName_complete (.part hd ht hp ht' hrest) hdot

/-- A literal that is spelled is read. -/
theorem operand_literal {lit : Syntax.BasicLit} {ts rest : List Token}
    (h : spells src (.basicLit lit) ts) (hrest : Continues (.basicLit lit) rest) :
    operand src expr n (ts ++ rest) = .ok (.basicLit lit, rest) := by
  obtain ⟨span, kind, value⟩ := lit
  cases kind
  case bool =>
    obtain ⟨rfl, hvalue⟩ := h
    obtain ⟨hdot, hlparen⟩ := hrest rfl
    change identExpr src expr n _ rest = _
    rw [identExpr_word hdot hlparen]
    simp [wordExpr, hvalue]
  all_goals
    cases h
    rfl

/-- A parenthesised expression that is spelled is read. -/
theorem operand_paren (hexpr : Complete src expr n) {lparen rparen : Span} {x : Syntax.Expr}
    {ts rest : List Token} (hlength : (ts ++ rest).length ≤ n)
    (h : spells src (.paren lparen x rparen) ts) (hwf : wellFormed x 0) :
    operand src expr n (ts ++ rest) = .ok (.paren lparen x rparen, rest) := by
  obtain ⟨value, xs, value', rfl, hx⟩ := h
  have hlength' : (xs ++ ⟨.rparen, rparen, value'⟩ :: rest).length < n := by
    simp at hlength ⊢
    omega
  have hnested := hexpr.closed hlength' hwf hx (.inr (.inr (.inl rfl)))
  simp only [List.cons_append, List.append_assoc, List.nil_append, operand, hnested]
  rfl

/-- A call with arguments reads the first of them. -/
theorem callExpr_first {func tok : Token} {lparen : Span} {ts rest : List Token}
    (h : tok.kind ≠ .rparen) :
    callExpr src expr n func lparen (tok :: ts ++ rest) =
      andThen (elements src expr n (tok :: ts ++ rest)) fun (first, others, rparen) ts =>
        .ok (.call ⟨func.value, func.span, false⟩ lparen (first :: others) rparen, ts) := by
  unfold callExpr
  split
  next heq =>
    cases heq
    exact absurd rfl h
  · rfl

/-- A call that is spelled is read. -/
theorem operand_call (hexpr : Complete src expr n) {func : Syntax.Ident} {lparen rparen : Span}
    {args : List Syntax.Expr} {ts rest : List Token} (hlength : (ts ++ rest).length ≤ n)
    (h : spells src (.call func lparen args rparen) ts) (hwf : allWellFormed args) :
    operand src expr n (ts ++ rest) = .ok (.call func lparen args rparen, rest) := by
  obtain ⟨name, span, quoted⟩ := func
  obtain ⟨hquoted, value, as, rfl, has⟩ := h
  cases hquoted
  change identExpr src expr n _ (⟨.lparen, lparen, value⟩ :: (as ++ rest)) = _
  rw [identExpr, if_neg (by simp), if_pos rfl]
  cases args with
  | nil =>
    obtain ⟨value', rfl⟩ := has
    rfl
  | cons e es =>
    obtain ⟨xs, rs, rfl, he, hes⟩ := has
    obtain ⟨tok, xs', rfl, htok⟩ := spells_first e xs he hwf.1
    have hnested := @elements_complete src expr n hexpr es rparen e (tok :: xs') rs rest n
      (by simp at hlength ⊢; omega) (by simp at hlength ⊢; omega) he hes hwf.1 hwf.2
    have htok' : tok.kind ≠ .rparen := by
      intro hkind
      simp [hkind, startsOperand, signOf] at htok
    rw [List.append_assoc, callExpr_first htok', hnested]
    rfl

/-- An operand's tokens are read as it, before what reaches into its value. -/
theorem primaryExpr_of_operand {x : Syntax.Expr} {ts rest : List Token}
    (hlength : (ts ++ rest).length ≤ n) (h : operand src expr n (ts ++ rest) = .ok (x, rest)) :
    ∃ k, rest.length ≤ k ∧
      primaryExpr src expr n (ts ++ rest) = repeated (accessor src expr) k x rest := by
  refine ⟨n, ?_, ?_⟩
  · simp only [List.length_append] at hlength
    omega
  · rw [primaryExpr, h]
    rfl

/-- A member that is spelled is read after its expression. -/
theorem accessor_member {x : Syntax.Expr} {dot : Span} {name : Syntax.Ident} {kind : TokenKind}
    {value : String} {rest : List Token} (hword : isWord x = false) (hquoted : name.quoted = false)
    (hkind : isNamePart kind = true) (hdot : dot.start = x.span.stop)
    (hname : name.span.start = dot.stop) :
    accessor src expr x (⟨.dot, dot, value⟩ :: ⟨kind, name.span, name.name⟩ :: rest) =
      some (.ok (.member x dot name, rest)) := by
  have hident : isIdentExpr x = false := by
    cases x <;> simp [isWord] at hword <;> rfl
  obtain ⟨name, span, quoted⟩ := name
  cases hquoted
  simp only [accessor, hident, hdot, Bool.not_false, and_self, if_true, memberExpr, hkind]
  rw [if_pos ⟨trivial, hname⟩]

/-- A quoted index that is spelled is read after its expression. -/
theorem accessor_quotedIndex {x : Syntax.Expr} {tok : Token} {rest : List Token}
    (h : tok.kind = .quotedIdentifier) :
    accessor src expr x (tok :: rest) = some (.ok (quotedIndex x tok, rest)) := by
  simp [accessor, h]

/-- An index that is spelled is read after its expression. -/
theorem accessor_index (hexpr : Complete src expr n) {x index : Syntax.Expr} {lbrack rbrack : Span}
    {value value' : String} {is rest : List Token}
    (hlength : (is ++ ⟨.rbracket, rbrack, value'⟩ :: rest).length < n) (hwf : wellFormed index 0)
    (hindex : spells src index is) :
    accessor src expr x (⟨.lbracket, lbrack, value⟩ :: (is ++ ⟨.rbracket, rbrack, value'⟩ :: rest)) =
      some (.ok (.index x lbrack index rbrack, rest)) := by
  have hnested := hexpr.closed hlength hwf hindex (.inr (.inr (.inr rfl)))
  obtain ⟨tok, is', rfl, htok⟩ := spells_first index is hindex hwf
  have htok' : tok.kind ≠ .rbracket := by
    intro hkind
    simp [hkind, startsOperand, signOf] at htok
  simp only [accessor, reduceCtorEq, false_and, if_false, if_true, Option.some.injEq]
  unfold indexExpr
  split
  next heq => simp at heq
  next heq =>
    cases heq
    exact absurd rfl htok'
  next =>
    rw [hnested]
    rfl

/-- An operand's tokens are read as it, up to what reaches further into its value. -/
theorem primaryExpr_continues (hexpr : Complete src expr n) : ∀ (x : Syntax.Expr) (m : ℕ)
    (ts rest : List Token), (ts ++ rest).length ≤ n → isPrimary x = true → wellFormed x m →
    spells src x ts → Continues x rest → ∃ k, rest.length ≤ k ∧
      primaryExpr src expr n (ts ++ rest) = repeated (accessor src expr) k x rest
  | .member x dot name, m, ts, rest, hlength, _, hwf, hx, _ => by
    obtain ⟨hquoted, xs, value, kind, rfl, hkind, hdot, hname, hx⟩ := hx
    obtain ⟨hprimary, hword, hwf⟩ := hwf
    simp only [List.append_assoc] at hlength
    obtain ⟨k, hk, heq⟩ := primaryExpr_continues hexpr x m xs _ hlength hprimary hwf hx
      (fun h => by simp [hword] at h)
    simp only [List.length_append, List.length_cons, List.length_nil] at hk
    obtain ⟨k, rfl⟩ : ∃ k', k = k' + 1 := ⟨k - 1, by omega⟩
    refine ⟨k, by omega, ?_⟩
    rw [List.append_assoc, heq]
    exact repeated_some (accessor_member hword hquoted hkind hdot hname)
  | .index x lbrack index rbrack, m, ts, rest, hlength, _, hwf, hx, _ => by
    obtain ⟨xs, hx, h⟩ := hx
    obtain ⟨hprimary, hwf, hwf'⟩ := hwf
    rcases h with ⟨tok, rfl, hkind, heq⟩ | ⟨value, is, value', rfl, hindex⟩
    · simp only [List.append_assoc] at hlength
      obtain ⟨k, hk, hread⟩ := primaryExpr_continues hexpr x m xs _ hlength hprimary hwf hx
        (fun _ => ⟨fun h => by simp [touchingDot, hkind] at h, fun _ _ h => by cases h; simp [hkind]⟩)
      simp only [List.length_append, List.length_cons, List.length_nil] at hk
      obtain ⟨k, rfl⟩ : ∃ k', k = k' + 1 := ⟨k - 1, by omega⟩
      refine ⟨k, by omega, ?_⟩
      rw [List.append_assoc, hread, heq]
      exact repeated_some (accessor_quotedIndex hkind)
    · simp only [List.append_assoc, List.cons_append, List.nil_append] at hlength ⊢
      obtain ⟨k, hk, hread⟩ := primaryExpr_continues hexpr x m xs _ hlength hprimary hwf hx
        (fun _ => ⟨fun h => by simp [touchingDot] at h, fun _ _ h => by cases h; simp⟩)
      simp only [List.length_append, List.length_cons] at hk hlength
      obtain ⟨k, rfl⟩ : ∃ k', k = k' + 1 := ⟨k - 1, by omega⟩
      refine ⟨k, by omega, ?_⟩
      rw [hread]
      refine repeated_some (accessor_index hexpr ?_ hwf' hindex)
      simp only [List.length_append, List.length_cons]
      omega
  | .ident _, _, _, _, hlength, _, _, hx, hrest =>
    primaryExpr_of_operand hlength (operand_ident hx hrest)
  | .param _, _, _, _, hlength, _, _, hx, _ =>
    primaryExpr_of_operand hlength (by cases hx; rfl)
  | .basicLit _, _, _, _, hlength, _, _, hx, hrest =>
    primaryExpr_of_operand hlength (operand_literal hx hrest)
  | .paren _ _ _, _, _, _, hlength, _, hwf, hx, _ =>
    primaryExpr_of_operand hlength (operand_paren hexpr hlength hx hwf)
  | .call _ _ _ _, _, _, _, hlength, _, hwf, hx, _ =>
    primaryExpr_of_operand hlength (operand_call hexpr hlength hx hwf)

/-- No accessor is read where the operand ends. -/
theorem accessor_ends {x : Syntax.Expr} {rest : List Token} (h : Ends rest) :
    accessor src expr x rest = none := by
  cases rest with
  | nil => rfl
  | cons tok ts => simp [accessor, h.1, h.2.1, h.2.2.1]

/-- A primary expression that is spelled is read. -/
theorem primaryExpr_complete (hexpr : Complete src expr n) {x : Syntax.Expr} {m : ℕ}
    {ts rest : List Token} (hlength : (ts ++ rest).length ≤ n) (hprimary : isPrimary x = true)
    (hwf : wellFormed x m) (hx : spells src x ts) (hrest : Ends rest) :
    primaryExpr src expr n (ts ++ rest) = .ok (x, rest) := by
  obtain ⟨k, -, h⟩ :=
    primaryExpr_continues hexpr x m ts rest hlength hprimary hwf hx hrest.continues
  rw [h, repeated_none (accessor_ends hrest)]

/-- A signed operand's tokens, or an operand's own, are read as it. -/
theorem unaryExpr_primary (hexpr : Complete src expr n) {x : Syntax.Expr} {m : ℕ}
    {ts rest : List Token} (hlength : (ts ++ rest).length ≤ n) (hprimary : isPrimary x = true)
    (hwf : wellFormed x m) (hx : spells src x ts) (hrest : Ends rest) :
    unaryExpr src expr n (ts ++ rest) = .ok (x, rest) := by
  have hread := primaryExpr_complete hexpr hlength hprimary hwf hx hrest
  obtain ⟨tok, ts', rfl, htok⟩ := spells_first x ts hx hwf
  have hsign : signOf tok.kind = none := by
    have hstart : startsOperand tok.kind = true := by simpa [hprimary] using htok
    generalize tok.kind = kind at hstart
    cases kind <;> first | rfl | simp [startsOperand] at hstart
  simp only [List.cons_append, unaryExpr, hsign] at hread ⊢
  exact hread

/-- A signed expression that is spelled is read. -/
theorem unaryExpr_unary (hexpr : Complete src expr n) {x : Syntax.Expr} {span : Span}
    {op : Syntax.Sign} {m : ℕ} {ts rest : List Token} (hlength : (ts ++ rest).length ≤ n)
    (hwf : wellFormed (.unary span op x) m) (hx : spells src (.unary span op x) ts)
    (hrest : Ends rest) :
    unaryExpr src expr n (ts ++ rest) = .ok (.unary span op x, rest) := by
  obtain ⟨kind, value, xs, rfl, hsign, hx⟩ := hx
  have hlength' : (xs ++ rest).length ≤ n := by
    simp only [List.cons_append, List.length_cons] at hlength
    omega
  have hread := primaryExpr_complete hexpr hlength' hwf.1 hwf.2 hx hrest
  simp only [List.cons_append, unaryExpr, hsign, hread, andThen_ok]

/-- An operator and its right operand are read, where an operator as tight as asked. -/
theorem operation_binary (hexpr : Complete src expr n) {m : ℕ} {x y : Syntax.Expr} {span : Span}
    {op : Syntax.BinaryOp} {os ys rest : List Token} (hlength : (ys ++ rest).length < n)
    (hm : m ≤ precedence (.binary op)) (hos : SpellsOperator (.binary op) span os)
    (hy : spells src y ys) (hwf : wellFormed y (precedence (.binary op) + 1)) (hrest : Ends rest)
    (hstops : StopsBelow (precedence (.binary op) + 1) rest) :
    operation src expr n m x (os ++ (ys ++ rest)) = some (.ok (.binary x span op y, rest)) := by
  have hread := hexpr _ y ys rest hlength hwf hy hrest hstops
  have hne : (ys ++ rest).isEmpty = false := by
    obtain ⟨tok, ts, rfl, -⟩ := spells_first y ys hy hwf
    rfl
  unfold operation
  rw [(hos.read (ys ++ rest)).1]
  simp only [if_neg (Nat.not_lt.2 hm), hne, hread]
  rfl

/-- An in that is spelled is read after its left side. -/
theorem operation_inList (hexpr : Complete src expr n) {m : ℕ} {x first : Syntax.Expr} {span : Span}
    {negated : Bool} {lparen rparen : Span} {others : List Syntax.Expr} {value : String}
    {os fs rs rest : List Token} (hlength : (fs ++ (rs ++ rest)).length < n)
    (hm : m ≤ precedence (.isIn negated)) (hos : SpellsOperator (.isIn negated) span os)
    (hfirst : spells src first fs) (hothers : spellsRest src others rparen rs)
    (hwf : wellFormed first 0) (hall : allWellFormed others) :
    operation src expr n m x (os ++ ⟨.lparen, lparen, value⟩ :: (fs ++ (rs ++ rest))) =
      some (.ok (.inList x span negated lparen first others rparen, rest)) := by
  have hread := elements_complete hexpr hlength (Nat.le_of_lt hlength) hfirst hothers hwf hall
  unfold operation
  rw [(hos.read _).1]
  simp only [if_neg (Nat.not_lt.2 hm), List.isEmpty_cons, list, hread]
  rfl

/-- Every operator the tokens go on with can follow an expression. -/
def FollowsWell (x : Syntax.Expr) (rest : List Token) : Prop :=
  ∀ op span after, binaryOperator rest = some (op, span, after) → canFollow x op

/-- A signed expression is read where no operation was yet. -/
theorem exprOf_of_unary {m : ℕ} {x : Syntax.Expr} {ts rest : List Token}
    (hlength : (ts ++ rest).length ≤ n)
    (h : unaryExpr src (exprOf src n) n (ts ++ rest) = .ok (x, rest)) : ∃ k, rest.length ≤ k ∧
      exprOf src (n + 1) m (ts ++ rest) =
        repeated (operation src (exprOf src n) n m) k x rest := by
  refine ⟨n, ?_, ?_⟩
  · simp only [List.length_append] at hlength
    omega
  · rw [exprOf, h]
    rfl

/-- An expression's tokens are read as it, up to the operators that follow it. -/
theorem exprOf_continues (hexpr : Complete src (exprOf src n) n) : ∀ (x : Syntax.Expr) (m : ℕ)
    (ts rest : List Token), (ts ++ rest).length ≤ n → wellFormed x m → spells src x ts →
    Ends rest → FollowsWell x rest → ∃ k, rest.length ≤ k ∧
      exprOf src (n + 1) m (ts ++ rest) =
        repeated (operation src (exprOf src n) n m) k x rest
  | .binary x span op y, m, ts, rest, hlength, hwf, hx, hrest, hfollow => by
    obtain ⟨xs, os, ys, rfl, hx, hos, hy⟩ := hx
    obtain ⟨hm, hwf, hcan, hwfy⟩ := hwf
    obtain ⟨hop, hends, hne⟩ := hos.read (ys ++ rest)
    simp only [List.append_assoc] at hlength ⊢
    obtain ⟨k, hk, hread⟩ := exprOf_continues hexpr x m xs _ hlength hwf hx hends
      (fun op' _ _ h => by rw [hop] at h; cases h; exact hcan)
    have hlen : 0 < os.length := List.length_pos_iff.2 hne
    simp only [List.length_append] at hk hlength
    obtain ⟨k, rfl⟩ : ∃ k', k = k' + 1 := ⟨k - 1, by omega⟩
    refine ⟨k, by omega, ?_⟩
    rw [hread]
    refine repeated_some (operation_binary hexpr ?_ hm hos hy hwfy hrest ?_)
    · simp only [List.length_append]
      omega
    · intro op' span' after' h
      exact Nat.lt_succ_of_le (hfollow op' span' after' h _ rfl)
  | .inList x span negated lparen first others rparen, m, ts, rest, hlength, hwf, hx, hrest, _ => by
    obtain ⟨xs, os, value, fs, rs, rfl, hx, hos, hfirst, hothers⟩ := hx
    obtain ⟨hm, hwf, hcan, hwff, hall⟩ := hwf
    simp only [List.append_assoc, List.cons_append] at hlength ⊢
    obtain ⟨hop, hends, hne⟩ := hos.read (⟨.lparen, lparen, value⟩ :: (fs ++ (rs ++ rest)))
    obtain ⟨k, hk, hread⟩ := exprOf_continues hexpr x m xs _ hlength hwf hx hends
      (fun op' _ _ h => by rw [hop] at h; cases h; exact hcan)
    simp only [List.length_append, List.length_cons] at hk hlength
    obtain ⟨k, rfl⟩ : ∃ k', k = k' + 1 := ⟨k - 1, by omega⟩
    refine ⟨k, by omega, ?_⟩
    rw [hread]
    refine repeated_some (operation_inList hexpr ?_ hm hos hfirst hothers hwff hall)
    simp only [List.length_append]
    omega
  | .unary _ _ _, _, _, _, hlength, hwf, hx, hrest, _ =>
    exprOf_of_unary hlength (unaryExpr_unary hexpr hlength hwf hx hrest)
  | .ident _, _, _, _, hlength, hwf, hx, hrest, _ =>
    exprOf_of_unary hlength (unaryExpr_primary hexpr hlength rfl hwf hx hrest)
  | .param _, _, _, _, hlength, hwf, hx, hrest, _ =>
    exprOf_of_unary hlength (unaryExpr_primary hexpr hlength rfl hwf hx hrest)
  | .basicLit _, _, _, _, hlength, hwf, hx, hrest, _ =>
    exprOf_of_unary hlength (unaryExpr_primary hexpr hlength rfl hwf hx hrest)
  | .paren _ _ _, _, _, _, hlength, hwf, hx, hrest, _ =>
    exprOf_of_unary hlength (unaryExpr_primary hexpr hlength rfl hwf hx hrest)
  | .call _ _ _ _, _, _, _, hlength, hwf, hx, hrest, _ =>
    exprOf_of_unary hlength (unaryExpr_primary hexpr hlength rfl hwf hx hrest)
  | .member _ _ _, _, _, _, hlength, hwf, hx, hrest, _ =>
    exprOf_of_unary hlength (unaryExpr_primary hexpr hlength rfl hwf hx hrest)
  | .index _ _ _ _, _, _, _, hlength, hwf, hx, hrest, _ =>
    exprOf_of_unary hlength (unaryExpr_primary hexpr hlength rfl hwf hx hrest)

/-- No operation is read where the expression stops. -/
theorem operation_stops {m : ℕ} {x : Syntax.Expr} {rest : List Token} (h : StopsBelow m rest) :
    operation src expr n m x rest = none := by
  unfold operation
  split
  · rfl
  next op span after hop => rw [if_pos (h op span after hop)]

/-- What follows a well-formed expression and binds less tightly than asked can follow it. -/
theorem StopsBelow.followsWell {x : Syntax.Expr} {m : ℕ} {rest : List Token}
    (h : StopsBelow m rest) (hwf : wellFormed x m) : FollowsWell x rest := by
  intro op span after hop last hlast
  have hlt := h op span after hop
  cases x with
  | binary x opSpan op' y =>
    cases hlast
    have hle : m ≤ precedence (.binary op') := hwf.1
    omega
  | _ => cases hlast

/-- The parser of expressions reads every well-formed one of few enough tokens. -/
theorem exprOf_complete (src : Source) (n : ℕ) : Complete src (exprOf src n) n := by
  induction n with
  | zero =>
    intro m x ts rest hlength
    omega
  | succ n ih =>
    intro m x ts rest hlength hwf hx hrest hstops
    obtain ⟨k, -, hread⟩ := exprOf_continues ih x m ts rest (Nat.le_of_lt_succ hlength) hwf hx hrest
      (hstops.followsWell hwf)
    rw [hread, repeated_none (operation_stops hstops)]

end Complete

section Inverse

/-- Expression parsing inverts writing. It never runs deeper than the tokens allow; what it reads is
how the tree it gives is written, and the tree is well formed; a well-formed tree's tokens, followed
by what ends an expression, are all read, as that tree; and so no two well-formed trees are written
with the same tokens. -/
theorem parseExpr_inverts (src : Source) :
    (∀ ts, parseExpr src 0 ts ≠ tooDeep) ∧
    (∀ ts x rest, parseExpr src 0 ts = .ok (x, rest) →
      ∃ used, ts = used ++ rest ∧ spells src x used ∧ wellFormed x 0) ∧
    (∀ x ts rest, wellFormed x 0 → spells src x ts → Closed rest →
      parseExpr src 0 (ts ++ rest) = .ok (x, rest)) ∧
    ∀ x y ts, wellFormed x 0 → wellFormed y 0 → spells src x ts → spells src y ts → x = y := by
  have hcomplete : ∀ x ts rest, wellFormed x 0 → spells src x ts → Closed rest →
      parseExpr src 0 (ts ++ rest) = .ok (x, rest) := fun x ts rest hwf hx hrest =>
    (exprOf_complete src _).closed (Nat.lt_succ_self _) hwf hx hrest
  refine ⟨fun ts => ?_, fun ts x rest h => ?_, hcomplete, fun x y ts hwfx hwfy hx hy => ?_⟩
  · exact (exprOf_adequate src _ 0 ts (Nat.lt_succ_self _)).1
  · exact (exprOf_sound src _ 0 ts x rest h).1
  · have hreadx := hcomplete x ts [] hwfx hx trivial
    have hready := hcomplete y ts [] hwfy hy trivial
    rw [hreadx] at hready
    cases hready
    rfl

/-- The operator of an expression that is not in brackets. -/
def rootOperator : Syntax.Expr → Option Operator
  | .binary _ _ op _ => some (.binary op)
  | .inList _ _ negated _ _ _ _ => some (.isIn negated)
  | _ => none

/-- Whether every right operand binds strictly tighter than its operator, unless in parentheses, and
every signed operand is an operand: what well-formedness asks, but for left operands. -/
def rightsBindTighter : Syntax.Expr → Prop
  | .binary x _ op y => rightsBindTighter x ∧ rightsBindTighter y ∧
      ∀ next ∈ rootOperator y, precedence (.binary op) < precedence next
  | .inList x _ _ _ first rest _ => rightsBindTighter x ∧ rightsBindTighter first ∧
      ∀ e ∈ rest, rightsBindTighter e
  | .unary _ _ x => isPrimary x = true ∧ rightsBindTighter x
  | .paren _ x _ => rightsBindTighter x
  | .call _ _ args _ => ∀ e ∈ args, rightsBindTighter e
  | .member x _ _ => rightsBindTighter x
  | .index x _ index _ => rightsBindTighter x ∧ rightsBindTighter index
  | _ => True

/-- `a or b and c`. -/
def orAndSource : Source := ⟨"a or b and c", fun text => "\"" ++ text ++ "\""⟩

def orAndTokens : List Token :=
  [⟨.identifier, ⟨0, 1⟩, "a"⟩, ⟨.or, ⟨2, 4⟩, "or"⟩, ⟨.identifier, ⟨5, 6⟩, "b"⟩,
    ⟨.and, ⟨7, 10⟩, "and"⟩, ⟨.identifier, ⟨11, 12⟩, "c"⟩]

/-- `a or (b and c)`, without the parentheses. -/
def andInOr : Syntax.Expr :=
  .binary (.ident ⟨"a", ⟨0, 1⟩, false⟩) ⟨2, 4⟩ .or
    (.binary (.ident ⟨"b", ⟨5, 6⟩, false⟩) ⟨7, 10⟩ .and (.ident ⟨"c", ⟨11, 12⟩, false⟩))

/-- `(a or b) and c`, without the parentheses. -/
def orInAnd : Syntax.Expr :=
  .binary (.binary (.ident ⟨"a", ⟨0, 1⟩, false⟩) ⟨2, 4⟩ .or (.ident ⟨"b", ⟨5, 6⟩, false⟩)) ⟨7, 10⟩
    .and (.ident ⟨"c", ⟨11, 12⟩, false⟩)

/-- A word is spelled by itself, but for the three that are no names. -/
theorem spells_letter (name : String) (span : Span)
    (h : name ≠ "true" ∧ name ≠ "false" ∧ name ≠ "not") :
    spells orAndSource (.ident ⟨name, span, false⟩) [⟨.identifier, span, name⟩] :=
  ⟨⟨.identifier, span, name⟩, [], rfl, rfl, .none name span, fun _ => h⟩

/-- The sample is spelled by its tokens. -/
theorem spells_andInOr : spells orAndSource andInOr orAndTokens :=
  ⟨_, _, _, rfl, spells_letter "a" ⟨0, 1⟩ (by decide), @SpellsOperator.symbol .or .or rfl ⟨2, 4⟩ "or",
    _, _, _, rfl, spells_letter "b" ⟨5, 6⟩ (by decide), @SpellsOperator.symbol .and .and rfl ⟨7, 10⟩ "and",
    spells_letter "c" ⟨11, 12⟩ (by decide)⟩

/-- The sample is well formed. -/
theorem wellFormed_andInOr : wellFormed andInOr 0 := by
  simp [andInOr, wellFormed, canFollow, lastOperator, precedence]

/-- The words of `a or b and c` are read as they are bound. -/
theorem parseExpr_inverts_orAnd : parseExpr orAndSource 0 orAndTokens = .ok (andInOr, []) := by
  rw [← List.append_nil orAndTokens]
  exact (parseExpr_inverts orAndSource).2.2.1 andInOr orAndTokens [] wellFormed_andInOr
    spells_andInOr trivial

/-- A left operand that binds more loosely than its operator is not read again, although every right
operand binds tighter than its operator: two such trees are written with the same tokens. -/
theorem looseLeft_notRead :
    rightsBindTighter orInAnd ∧ spells orAndSource orInAnd orAndTokens ∧
    parseExpr orAndSource 0 orAndTokens = .ok (andInOr, []) ∧ orInAnd ≠ andInOr := by
  refine ⟨?_, ?_, ?_, ?_⟩
  · simp [orInAnd, rightsBindTighter, rootOperator]
  · exact ⟨_, _, _, rfl, ⟨_, _, _, rfl, spells_letter "a" ⟨0, 1⟩ (by decide),
      @SpellsOperator.symbol .or .or rfl ⟨2, 4⟩ "or", spells_letter "b" ⟨5, 6⟩ (by decide)⟩,
      @SpellsOperator.symbol .and .and rfl ⟨7, 10⟩ "and", spells_letter "c" ⟨11, 12⟩ (by decide)⟩
  · rw [← List.append_nil orAndTokens]
    exact (exprOf_complete orAndSource _).closed (Nat.lt_succ_self _) wellFormed_andInOr
      spells_andInOr trivial
  · simp [orInAnd, andInOr]

end Inverse

end SolidTrace.LogQuery
