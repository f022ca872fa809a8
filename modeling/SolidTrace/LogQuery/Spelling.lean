import SolidTrace.LogQuery.Parse

/-!
# How expressions are written

The tokens an expression's tree is written with, and which trees are well formed: the grammar of
expressions, apart from the parser that reads it.
-/

namespace SolidTrace.LogQuery

section Spelling

/-- How a binary operator is written. A `!` touches the word it negates. -/
inductive SpellsOperator : Operator → Span → List Token → Prop
  | symbol {kind : TokenKind} {op : Syntax.BinaryOp} (h : symbolOperator kind = some op)
      (span : Span) (value : String) : SpellsOperator (.binary op) span [⟨kind, span, value⟩]
  | word {value : String} {op negated : Operator} (h : wordOperators value = some (op, negated))
      (span : Span) : SpellsOperator op span [⟨.identifier, span, value⟩]
  | negated {value : String} {op negated : Operator} (h : wordOperators value = some (op, negated))
      (bang span : Span) (text : String) (htouch : span.start = bang.stop) :
      SpellsOperator negated (.union [bang, span]) [⟨.bang, bang, text⟩, ⟨.identifier, span, value⟩]
  | matchesRegex (span next : Span) :
      SpellsOperator (.binary .matchesRegex) (.union [span, next])
        [⟨.identifier, span, "matches"⟩, ⟨.identifier, next, "regex"⟩]

variable (src : Source)

/-- The further parts of a dotted name, from a name and its span to the whole of it. The parts touch
their dots. -/
inductive SpellsParts : String → Span → String → Span → List Token → Prop
  | none (name : String) (span : Span) : SpellsParts name span name span []
  | part {name whole : String} {span all : Span} {dot part : Token} {ts : List Token}
      (hdot : dot.kind = .dot) (htouch : dot.span.start = span.stop)
      (hpart : isNamePart part.kind = true) (htouch' : part.span.start = dot.span.stop)
      (hrest : SpellsParts (name ++ "." ++ src.at part.span) (.union [span, part.span]) whole all ts) :
      SpellsParts name span whole all (dot :: part :: ts)

/-- How a name is written: in brackets, or as a word with its dotted parts. A word alone is not one
of the language's own. -/
def spellsIdent (id : Syntax.Ident) (ts : List Token) : Prop :=
  if id.quoted then ts = [⟨.quotedIdentifier, id.span, id.name⟩]
  else ∃ first parts, ts = first :: parts ∧ first.kind = .identifier ∧
    SpellsParts src first.value first.span id.name id.span parts ∧
    (parts = [] → first.value ≠ "true" ∧ first.value ≠ "false" ∧ first.value ≠ "not")

/-- How a literal is written. -/
def spellsLiteral (lit : Syntax.BasicLit) (ts : List Token) : Prop :=
  match lit.kind with
  | .string => ts = [⟨.string, lit.span, lit.value⟩]
  | .number => ts = [⟨.number, lit.span, lit.value⟩]
  | .timespan => ts = [⟨.timespan, lit.span, lit.value⟩]
  | .dateTime => ts = [⟨.dateTime, lit.span, lit.value⟩]
  | .bool => ts = [⟨.identifier, lit.span, lit.value⟩] ∧ (lit.value = "true" ∨ lit.value = "false")

mutual

/-- The tokens an expression is written with. What separates them but for brackets and commas is in
the tree. -/
def spells : Syntax.Expr → List Token → Prop
  | .ident id, ts => spellsIdent src id ts
  | .param p, ts => ts = [⟨.param, p.span, p.name⟩]
  | .basicLit lit, ts => spellsLiteral lit ts
  | .binary x span op y, ts => ∃ xs os ys, ts = xs ++ (os ++ ys) ∧
      spells x xs ∧ SpellsOperator (.binary op) span os ∧ spells y ys
  | .inList x span negated lparen first rest rparen, ts => ∃ xs os value fs rs,
      ts = xs ++ (os ++ ⟨.lparen, lparen, value⟩ :: (fs ++ rs)) ∧
      spells x xs ∧ SpellsOperator (.isIn negated) span os ∧ spells first fs ∧
      spellsRest rest rparen rs
  | .unary span op x, ts => ∃ kind value xs, ts = ⟨kind, span, value⟩ :: xs ∧
      signOf kind = some op ∧ spells x xs
  | .paren lparen x rparen, ts => ∃ value xs value',
      ts = ⟨.lparen, lparen, value⟩ :: (xs ++ [⟨.rparen, rparen, value'⟩]) ∧ spells x xs
  | .call func lparen args rparen, ts => func.quoted = false ∧ ∃ value as,
      ts = ⟨.identifier, func.span, func.name⟩ :: ⟨.lparen, lparen, value⟩ :: as ∧
      spellsArgs args rparen as
  | .member x dot name, ts => name.quoted = false ∧ ∃ xs value kind,
      ts = xs ++ [⟨.dot, dot, value⟩, ⟨kind, name.span, name.name⟩] ∧ isNamePart kind = true ∧
      dot.start = x.span.stop ∧ name.span.start = dot.stop ∧ spells x xs
  | .index x lbrack index rbrack, ts => ∃ xs, spells x xs ∧
      -- A name in brackets is one token.
      ((∃ tok, ts = xs ++ [tok] ∧ tok.kind = .quotedIdentifier ∧
          .index x lbrack index rbrack = quotedIndex x tok) ∨
        ∃ value is value', ts = xs ++ ⟨.lbracket, lbrack, value⟩ :: (is ++ [⟨.rbracket, rbrack, value'⟩]) ∧
          spells index is)

/-- The tokens after the first value of a list, to its closing parenthesis. -/
def spellsRest : List Syntax.Expr → Span → List Token → Prop
  | [], rparen, ts => ∃ value, ts = [⟨.rparen, rparen, value⟩]
  | e :: es, rparen, ts => ∃ span value xs rs, ts = ⟨.comma, span, value⟩ :: (xs ++ rs) ∧
      spells e xs ∧ spellsRest es rparen rs

/-- The tokens of a call's arguments, to its closing parenthesis. -/
def spellsArgs : List Syntax.Expr → Span → List Token → Prop
  | [], rparen, ts => ∃ value, ts = [⟨.rparen, rparen, value⟩]
  | e :: es, rparen, ts => ∃ xs rs, ts = xs ++ rs ∧ spells e xs ∧ spellsRest es rparen rs

end

end Spelling

section WellFormed

/-- Whether an expression is an operand, with what reaches into its value. -/
def isPrimary : Syntax.Expr → Bool
  | .binary _ _ _ _ => false
  | .inList _ _ _ _ _ _ _ => false
  | .unary _ _ _ => false
  | _ => true

/-- Whether an expression is a name, or a word as `true` is: a dot that touches it is part of a
name. -/
def isWord : Syntax.Expr → Bool
  | .ident _ => true
  | .basicLit lit => lit.kind = .bool
  | _ => false

/-- The operator whose right operand an expression ends with, unless that is a list. -/
def lastOperator : Syntax.Expr → Option Operator
  | .binary _ _ op _ => some (.binary op)
  | _ => none

/-- An operator can follow an expression as a left operand: it binds no tighter than the operator
the expression ends with. -/
def canFollow (x : Syntax.Expr) (op : Operator) : Prop :=
  ∀ last ∈ lastOperator x, precedence op ≤ precedence last

mutual

/-- Whether an expression is well formed, and binds at least as tightly as asked but in brackets:
every operator of it binds so, a right operand strictly tighter than its operator, and a left one no
less tightly, unless it is an `in` or `!in`. -/
def wellFormed : Syntax.Expr → ℕ → Prop
  | .binary x _ op y, m => m ≤ precedence (.binary op) ∧ wellFormed x m ∧
      canFollow x (.binary op) ∧ wellFormed y (precedence (.binary op) + 1)
  | .inList x _ negated _ first rest _, m => m ≤ precedence (.isIn negated) ∧ wellFormed x m ∧
      canFollow x (.isIn negated) ∧ wellFormed first 0 ∧ allWellFormed rest
  | .unary _ _ x, m => isPrimary x = true ∧ wellFormed x m
  | .paren _ x _, _ => wellFormed x 0
  | .call _ _ args _, _ => allWellFormed args
  | .member x _ _, m => isPrimary x = true ∧ isWord x = false ∧ wellFormed x m
  | .index x _ index _, m => isPrimary x = true ∧ wellFormed x m ∧ wellFormed index 0
  | .ident _, _ => True
  | .param _, _ => True
  | .basicLit _, _ => True

def allWellFormed : List Syntax.Expr → Prop
  | [] => True
  | e :: es => wellFormed e 0 ∧ allWellFormed es

end

/-- An operand binds more tightly than any operator. -/
theorem wellFormed_primary {m : ℕ} (k : ℕ) :
    ∀ x : Syntax.Expr, isPrimary x = true → wellFormed x m → wellFormed x k
  | .paren _ _ _, _, h => h
  | .call _ _ _ _, _, h => h
  | .member x _ _, _, h => ⟨h.1, h.2.1, wellFormed_primary k x h.1 h.2.2⟩
  | .index x _ _ _, _, h => ⟨h.1, wellFormed_primary k x h.1 h.2.1, h.2.2⟩
  | .ident _, _, h => h
  | .param _, _, h => h
  | .basicLit _, _, h => h

/-- The kinds of tokens an operand starts with. -/
def startsOperand : TokenKind → Bool
  | .number | .string | .timespan | .dateTime | .quotedIdentifier | .param | .identifier => true
  | .lparen => true
  | _ => false

/-- An expression is written with a token or more, the first of them one an operand starts with, or
a sign. -/
theorem spells_first {src : Source} {m : ℕ} : ∀ (x : Syntax.Expr) (ts : List Token), spells src x ts →
    wellFormed x m → ∃ tok rest, ts = tok :: rest ∧
      (startsOperand tok.kind = true ∨ isPrimary x = false ∧ signOf tok.kind ≠ none)
  | .ident id, ts, h, _ => by
    unfold spells spellsIdent at h
    split at h
    · exact ⟨_, [], h, .inl rfl⟩
    · obtain ⟨first, parts, hts, hfirst, -⟩ := h
      exact ⟨first, parts, hts, .inl (by rw [hfirst]; rfl)⟩
  | .param p, ts, h, _ => ⟨_, [], h, .inl rfl⟩
  | .basicLit lit, ts, h, _ => by
    obtain ⟨span, kind, value⟩ := lit
    cases kind
    case bool => exact ⟨_, [], h.1, .inl rfl⟩
    all_goals exact ⟨_, [], h, .inl rfl⟩
  | .binary x _ _ _, ts, h, hwf => by
    obtain ⟨xs, os, ys, hts, hx, -⟩ := h
    obtain ⟨tok, rest, hxs, htok⟩ := spells_first x xs hx hwf.2.1
    refine ⟨tok, rest ++ (os ++ ys), by rw [hts, hxs]; rfl, ?_⟩
    exact htok.imp_right fun h => ⟨rfl, h.2⟩
  | .inList x _ _ _ _ _ _, ts, h, hwf => by
    obtain ⟨xs, os, value, fs, rs, hts, hx, -⟩ := h
    obtain ⟨tok, rest, hxs, htok⟩ := spells_first x xs hx hwf.2.1
    refine ⟨tok, _, by rw [hts, hxs]; rfl, ?_⟩
    exact htok.imp_right fun h => ⟨rfl, h.2⟩
  | .unary _ _ x, ts, h, _ => by
    obtain ⟨kind, value, xs, hts, hsign, -⟩ := h
    exact ⟨_, xs, hts, .inr ⟨rfl, by simp [hsign]⟩⟩
  | .paren _ _ _, ts, h, _ => by
    obtain ⟨value, xs, value', hts, -⟩ := h
    exact ⟨_, _, hts, .inl rfl⟩
  | .call _ _ _ _, ts, h, _ => by
    obtain ⟨-, value, as, hts, -⟩ := h
    exact ⟨_, _, hts, .inl rfl⟩
  | .member x _ _, ts, h, hwf => by
    obtain ⟨-, xs, value, kind, hts, -, -, -, hx⟩ := h
    obtain ⟨tok, rest, hxs, htok⟩ := spells_first x xs hx hwf.2.2
    refine ⟨tok, _, by rw [hts, hxs]; rfl, .inl ?_⟩
    simpa [hwf.1] using htok
  | .index x _ _ _, ts, h, hwf => by
    obtain ⟨xs, hx, h⟩ := h
    obtain ⟨tok, rest, hxs, htok⟩ := spells_first x xs hx hwf.2.1
    have hstart : startsOperand tok.kind = true := by simpa [hwf.1] using htok
    rcases h with ⟨_, hts, -⟩ | ⟨_, _, _, hts, -⟩
    · exact ⟨tok, _, by rw [hts, hxs]; rfl, .inl hstart⟩
    · exact ⟨tok, _, by rw [hts, hxs]; rfl, .inl hstart⟩

end WellFormed

end SolidTrace.LogQuery
