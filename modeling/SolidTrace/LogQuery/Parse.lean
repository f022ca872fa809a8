import SolidTrace.LogQuery.Syntax

/-!
# Parsing expressions

The tokens of a Query's text, and the recursive-descent parser of its expressions, with precedence
climbing for binary operators. What parses a nested expression is a parameter of each of its
functions, tied together by a depth that the number of tokens bounds: every nested expression and
every round of a loop comes after at least one token.
-/

namespace SolidTrace.LogQuery

section Tokens

/-- The kinds of tokens the scanner gives. Word operators are identifiers. -/
inductive TokenKind where
  | identifier | quotedIdentifier | number | string | timespan | dateTime | param
  | and | or
  | pipe | dot | comma | lparen | rparen | lbracket | rbracket
  | plus | minus | star | slash | mod | assign
  | eq | ne | lt | le | gt | ge | eqCI | neCI | bang
  | error
deriving DecidableEq, Repr

/-- One token of a Query's text. -/
structure Token where
  kind : TokenKind
  span : Span
  value : String
deriving DecidableEq, Repr

/-- A Query's text, and the verb `%q`. -/
structure Source where
  text : String
  quote : String → String

/-- The bytes of a text at a span. -/
def Source.at (src : Source) (span : Span) : String :=
  let bytes := (src.text.toUTF8.toList.drop span.start.toNat).take (span.stop - span.start).toNat
  (String.fromUTF8? ⟨bytes.toArray⟩).getD ""

/-- The place of the next token, or the end of the text. -/
def Source.nextSpan (src : Source) : List Token → Span
  | [] => ⟨src.text.utf8ByteSize, src.text.utf8ByteSize⟩
  | tok :: _ => tok.span

/-- The next token's name in an error message. -/
def Source.describe (src : Source) : List Token → String
  | [] => "the end of the Query"
  | tok :: _ => src.quote (src.at tok.span)

end Tokens

section Operators

/-- A binary operator: one with an expression on its right, or `in` or `!in`. -/
inductive Operator where
  | binary (op : Syntax.BinaryOp)
  | isIn (negated : Bool)
deriving DecidableEq, Repr

/-- How tightly a binary operator binds. -/
def precedence : Operator → ℕ
  | .binary .star | .binary .slash | .binary .mod => 4
  | .binary .plus | .binary .minus => 3
  | .binary .and => 1
  | .binary .or => 0
  | _ => 2

/-- The operator that a token is, if its kind says so. -/
def symbolOperator : TokenKind → Option Syntax.BinaryOp
  | .and => some .and
  | .or => some .or
  | .plus => some .plus
  | .minus => some .minus
  | .star => some .star
  | .slash => some .slash
  | .mod => some .mod
  | .eq => some .eq
  | .ne => some .ne
  | .lt => some .lt
  | .le => some .le
  | .gt => some .gt
  | .ge => some .ge
  | .eqCI => some .eqCI
  | .neCI => some .neCI
  | _ => none

/-- The operators written as words, and their negations written with a leading `!`. -/
def wordOperators : String → Option (Operator × Operator)
  | "contains" => some (.binary .contains, .binary .notContains)
  | "contains_cs" => some (.binary .containsCS, .binary .notContainsCS)
  | "startswith" => some (.binary .startsWith, .binary .notStartsWith)
  | "startswith_cs" => some (.binary .startsWithCS, .binary .notStartsWithCS)
  | "in" => some (.isIn false, .isIn true)
  | _ => none

/-- The binary operator that the tokens start with, if they start with one: the operator, its span
and the tokens after it. -/
def binaryOperator : List Token → Option (Operator × Span × List Token)
  | [] => none
  | tok :: rest =>
    match tok.kind, wordOperators tok.value, rest with
    | .identifier, some (op, _), rest => some (op, tok.span, rest)
    | .identifier, none, next :: rest =>
      if tok.value = "matches" ∧ next.kind = .identifier ∧ next.value = "regex" then
        some (.binary .matchesRegex, .union [tok.span, next.span], rest)
      else none
    | .identifier, none, [] => none
    | .bang, _, next :: rest =>
      match wordOperators next.value with
      | some (_, op) =>
        if next.kind = .identifier ∧ next.span.start = tok.span.stop then
          some (op, .union [tok.span, next.span], rest)
        else none
      | none => none
    | .bang, _, [] => none
    | kind, _, rest => (symbolOperator kind).map fun op => (.binary op, tok.span, rest)

end Operators

/-- What parsing gives: a value and the tokens after it, or a mistake. -/
abbrev Parsed (α : Type) := Except Error (α × List Token)

def parseError {α : Type} (span : Span) (message : String) : Parsed α := .error ⟨span, message⟩

/-- Parse on from what was parsed. -/
def andThen {α β : Type} (r : Parsed α) (next : α → List Token → Parsed β) : Parsed β :=
  match r with
  | .error e => .error e
  | .ok (x, ts) => next x ts

/-- Parsing ran deeper than the tokens allow, which it never does. -/
def tooDeep {α : Type} : Parsed α := .error ⟨.null, ""⟩

/-- Parse on while there is a next step. -/
def repeated (step : Syntax.Expr → List Token → Option (Parsed Syntax.Expr)) :
    ℕ → Syntax.Expr → List Token → Parsed Syntax.Expr
  | n, x, ts =>
    match step x ts, n with
    | none, _ => .ok (x, ts)
    | some _, 0 => tooDeep
    | some r, n + 1 => andThen r fun x ts => repeated step n x ts

section Operands

variable (src : Source) (expr : ℕ → List Token → Parsed Syntax.Expr) (n : ℕ)

/-- `value, …)`, after the opening parenthesis of a list or a call: the values and the closing
parenthesis. -/
def elements : ℕ → List Token → Parsed (Syntax.Expr × List Syntax.Expr × Span)
  | 0, _ => tooDeep
  | n + 1, ts => andThen (expr 0 ts) fun elem ts =>
    match ts with
    | ⟨.comma, _, _⟩ :: ts => andThen (elements n ts) fun (first, rest, rparen) ts =>
      .ok ((elem, first :: rest, rparen), ts)
    | ⟨.rparen, rparen, _⟩ :: ts => .ok ((elem, [], rparen), ts)
    | ts => parseError (src.nextSpan ts) ("expected , or ), got " ++ src.describe ts)

/-- A token that can be a part of a dotted name, or a member's name. -/
def isNamePart (kind : TokenKind) : Bool := kind = .identifier || kind = .and || kind = .or

/-- A dotted name, after its first parts. The parts must touch their dots. -/
def dottedName (name : String) (span : Span) : List Token → Parsed Syntax.Expr
  | [] => .ok (.ident ⟨name, span, false⟩, [])
  | dot :: ts =>
    if dot.kind = .dot ∧ dot.span.start = span.stop then
      let refuse := parseError (.union [span, dot.span])
        ("expected a name after the dot; quote names like this as ['" ++ name ++ ".…']")
      match ts with
      | [] => refuse
      | part :: ts =>
        if isNamePart part.kind ∧ part.span.start = dot.span.stop then
          dottedName (name ++ "." ++ src.at part.span) (.union [span, part.span]) ts
        else refuse
    else .ok (.ident ⟨name, span, false⟩, dot :: ts)

/-- `name(arg, …)`, after the name and the opening parenthesis. -/
def callExpr (func : Token) (lparen : Span) (ts : List Token) : Parsed Syntax.Expr :=
  match ts with
  | ⟨.rparen, rparen, _⟩ :: ts =>
    .ok (.call ⟨func.value, func.span, false⟩ lparen [] rparen, ts)
  | ts => andThen (elements src expr n ts) fun (first, rest, rparen) ts =>
    .ok (.call ⟨func.value, func.span, false⟩ lparen (first :: rest) rparen, ts)

/-- A word that neither a touching dot nor a parenthesis follows. -/
def wordExpr (first : Token) (ts : List Token) : Parsed Syntax.Expr :=
  if first.value = "true" ∨ first.value = "false" then
    .ok (.basicLit ⟨first.span, .bool, first.value⟩, ts)
  else if first.value = "not" then
    parseError first.span "not takes its condition in parentheses: not(…)"
  else .ok (.ident ⟨first.value, first.span, false⟩, ts)

/-- What starts with a name: true or false, a call, or a Field's name, dotted parts and all. -/
def identExpr (first : Token) (ts : List Token) : Parsed Syntax.Expr :=
  match ts with
  | [] => wordExpr first []
  | next :: rest =>
    if next.kind = .dot ∧ next.span.start = first.span.stop then
      dottedName src first.value first.span (next :: rest)
    else if next.kind = .lparen then callExpr src expr n first next.span rest
    else wordExpr first (next :: rest)

/-- A value: a literal, a name, a call, a Dashboard filter or an expression in parentheses. -/
def operand : List Token → Parsed Syntax.Expr
  | [] => parseError (src.nextSpan []) "expected an expression, got the end of the Query"
  | tok :: ts =>
    match tok.kind with
    | .number => .ok (.basicLit ⟨tok.span, .number, tok.value⟩, ts)
    | .string => .ok (.basicLit ⟨tok.span, .string, tok.value⟩, ts)
    | .timespan => .ok (.basicLit ⟨tok.span, .timespan, tok.value⟩, ts)
    | .dateTime => .ok (.basicLit ⟨tok.span, .dateTime, tok.value⟩, ts)
    | .quotedIdentifier => .ok (.ident ⟨tok.value, tok.span, true⟩, ts)
    | .param => .ok (.param ⟨tok.value, tok.span⟩, ts)
    | .identifier => identExpr src expr n tok ts
    | .lparen => andThen (expr 0 ts) fun x ts =>
      match ts with
      | ⟨.rparen, rparen, _⟩ :: ts => .ok (.paren tok.span x rparen, ts)
      | ts => parseError (src.nextSpan ts) ("expected ), got " ++ src.describe ts)
    | _ => parseError tok.span ("expected an expression, got " ++ src.describe (tok :: ts))

def isIdentExpr : Syntax.Expr → Bool
  | .ident _ => true
  | _ => false

/-- The index that a name in brackets, scanned as one token, is after an operand. -/
def quotedIndex (x : Syntax.Expr) (tok : Token) : Syntax.Expr :=
  .index x ⟨tok.span.start, tok.span.start + 1⟩
    (.basicLit ⟨⟨tok.span.start + 1, tok.span.stop - 1⟩, .string, tok.value⟩)
    ⟨tok.span.stop - 1, tok.span.stop⟩

/-- `[index]`, after the opening bracket. -/
def indexExpr (x : Syntax.Expr) (lbrack : Span) (ts : List Token) : Parsed Syntax.Expr :=
  let refuse := parseError lbrack
    "expected an index or a name in quotes after [, as in [0] or [\"store-id\"]"
  match ts with
  | [] => refuse
  | ⟨.rbracket, _, _⟩ :: _ => refuse
  | ts => andThen (expr 0 ts) fun index ts =>
    match ts with
    | ⟨.rbracket, rbrack, _⟩ :: ts => .ok (.index x lbrack index rbrack, ts)
    | ts => parseError (src.nextSpan ts) ("expected ], got " ++ src.describe ts)

/-- `.name`, after the dot. -/
def memberExpr (x : Syntax.Expr) (dot : Span) (ts : List Token) : Parsed Syntax.Expr :=
  let refuse := parseError dot
    "expected a name after the dot; write other names in brackets, as in [\"store-id\"]"
  match ts with
  | [] => refuse
  | name :: ts =>
    if isNamePart name.kind ∧ name.span.start = dot.stop then
      .ok (.member x dot ⟨name.value, name.span, false⟩, ts)
    else refuse

/-- What reaches into a value, if that is what follows it: `.name`, `["name"]` or `[index]`. -/
def accessor (x : Syntax.Expr) : List Token → Option (Parsed Syntax.Expr)
  | [] => none
  | tok :: ts =>
    if tok.kind = .dot ∧ !isIdentExpr x ∧ tok.span.start = x.span.stop then
      -- After a name, a dot touching it is part of the name.
      some (memberExpr x tok.span ts)
    else if tok.kind = .quotedIdentifier then some (.ok (quotedIndex x tok, ts))
    else if tok.kind = .lbracket then some (indexExpr src expr x tok.span ts)
    else none

/-- An operand and what reaches into its value after it. -/
def primaryExpr (ts : List Token) : Parsed Syntax.Expr :=
  andThen (operand src expr n ts) fun x ts => repeated (accessor src expr) n x ts

def signOf : TokenKind → Option Syntax.Sign
  | .minus => some .minus
  | .plus => some .plus
  | _ => none

def unaryExpr : List Token → Parsed Syntax.Expr
  | [] => primaryExpr src expr n []
  | tok :: ts =>
    match signOf tok.kind with
    | some op => andThen (primaryExpr src expr n ts) fun x ts => .ok (.unary tok.span op x, ts)
    | none => primaryExpr src expr n (tok :: ts)

/-- `(value, …)`, after in or !in. -/
def list (x : Syntax.Expr) (opSpan : Span) (negated : Bool) (ts : List Token) :
    Parsed Syntax.Expr :=
  match ts with
  | ⟨.lparen, lparen, _⟩ :: ts => andThen (elements src expr n ts) fun (first, rest, rparen) ts =>
    .ok (.inList x opSpan negated lparen first rest rparen, ts)
  | ts => parseError (src.nextSpan ts)
      ("expected a list in parentheses after " ++ src.quote (src.at opSpan) ++
        ", such as (\"a\", \"b\")")

/-- The next binary operator and its right operand, if it binds at least as tightly as asked. -/
def operation (minPrecedence : ℕ) (x : Syntax.Expr) (ts : List Token) :
    Option (Parsed Syntax.Expr) :=
  match binaryOperator ts with
  | none => none
  | some (op, span, ts) =>
    if precedence op < minPrecedence then none
    else if ts.isEmpty then
      some (parseError span ("expected an expression after " ++ src.quote (src.at span)))
    else
      match op with
      | .isIn negated => some (list src expr n x span negated ts)
      | .binary op => some (andThen (expr (precedence (.binary op) + 1) ts) fun y ts =>
          .ok (.binary x span op y, ts))

end Operands

/-- An expression whose binary operators bind at least as tightly as asked, nested at most so
deep. -/
def exprOf (src : Source) : ℕ → ℕ → List Token → Parsed Syntax.Expr
  | 0, _, _ => tooDeep
  | n + 1, minPrecedence, ts => andThen (unaryExpr src (exprOf src n) n ts) fun x ts =>
    repeated (operation src (exprOf src n) n minPrecedence) n x ts

/-- An expression whose binary operators bind at least as tightly as asked. -/
def parseExpr (src : Source) (minPrecedence : ℕ) (ts : List Token) : Parsed Syntax.Expr :=
  exprOf src (ts.length + 1) minPrecedence ts

end SolidTrace.LogQuery
