import SolidTrace.LogQuery.Scan

/-!
# Parsing a Query

The parser of a Query's stages around that of their expressions: a source, if the Query names one,
and then stages with a pipe between each two. It stops at the first mistake, and a token that is none
is one.
-/

namespace SolidTrace.LogQuery.Parser

variable (src : Source)

/-- Whether the next token is a word. -/
def atWord (word : String) : List Token → Bool
  | [] => false
  | tok :: _ => tok.kind = .identifier && tok.value = word

/-- A column's name and its `=`, if naming is allowed and an `=` is the second token. -/
def columnName (naming : Bool) : List Token → Parsed (Option Syntax.Ident)
  | name :: eq :: ts =>
    if naming = true ∧ eq.kind = .assign then
      if name.kind = .identifier ∨ name.kind = .quotedIdentifier then
        .ok (some ⟨name.value, name.span, name.kind = .quotedIdentifier⟩, ts)
      else parseError name.span
        ("expected a column name before =, got " ++ src.describe (name :: eq :: ts))
    else .ok (none, name :: eq :: ts)
  | ts => .ok (none, ts)

/-- One or more columns after a keyword, separated by commas: an expression, or `name = expr` where
naming is allowed. -/
def namedExprs (naming : Bool) : ℕ → Token → List Token → Parsed (List Syntax.NamedExpr)
  | 0, _, _ => tooDeep
  | n + 1, after, ts =>
    if ts.isEmpty then
      parseError after.span ("expected a column after " ++ src.quote (src.at after.span))
    else
      andThen (columnName src naming ts) fun name ts =>
      andThen (parseExpr src 0 ts) fun x ts =>
      match ts with
      | [] => .ok ([⟨name, x⟩], [])
      | tok :: rest =>
        if tok.kind = .comma then
          andThen (namedExprs naming n tok rest) fun columns ts => .ok (⟨name, x⟩ :: columns, ts)
        else .ok ([⟨name, x⟩], tok :: rest)

/-- `asc` or `desc`: whether it is `asc`, and its place. -/
def direction : List Token → (Bool × Span) × List Token
  | [] => ((false, .null), [])
  | tok :: ts =>
    if atWord "asc" (tok :: ts) || atWord "desc" (tok :: ts) then
      ((tok.value = "asc", tok.span), ts)
    else ((false, .null), tok :: ts)

/-- `nulls first` or `nulls last`, and its place, if `nulls` is next. -/
def nullsOrder : List Token → Parsed (Option (Syntax.Nulls × Span))
  | nulls :: which :: ts =>
    if atWord "nulls" (nulls :: which :: ts) then
      if atWord "first" (which :: ts) then .ok (some (.first, which.span), ts)
      else if atWord "last" (which :: ts) then .ok (some (.last, which.span), ts)
      else parseError nulls.span "expected nulls first or nulls last"
    else .ok (none, nulls :: which :: ts)
  | [nulls] =>
    if atWord "nulls" [nulls] then parseError nulls.span "expected nulls first or nulls last"
    else .ok (none, [nulls])
  | [] => .ok (none, [])

/-- `expr [asc | desc] [nulls first | nulls last]`. -/
def sortKey (after : Token) (ts : List Token) : Parsed Syntax.SortKey :=
  if ts.isEmpty then
    parseError after.span ("expected what to sort by after " ++ src.quote (src.at after.span))
  else
    andThen (parseExpr src 0 ts) fun x ts =>
    let ((asc, ascSpan), ts) := direction ts
    andThen (nullsOrder ts) fun nulls ts =>
    .ok (⟨x, asc, nulls.map Prod.fst, (nulls.map Prod.snd).getD ascSpan⟩, ts)

/-- One or more sort keys, separated by commas. -/
def sortKeys (by' : Token) : ℕ → List Token → Parsed (List Syntax.SortKey)
  | 0, _ => tooDeep
  | n + 1, ts => andThen (sortKey src by' ts) fun key ts =>
    match ts with
    | [] => .ok ([key], [])
    | tok :: rest =>
      if tok.kind = .comma then
        andThen (sortKeys by' n rest) fun keys ts => .ok (key :: keys, ts)
      else .ok ([key], tok :: rest)

/-- The whole number of rows after take or top. -/
def count (keyword : Token) (ts : List Token) : Parsed Syntax.BasicLit :=
  let refuse := parseError keyword.span
    (keyword.value ++ " needs a number of rows, as in " ++ keyword.value ++ " 10")
  match ts with
  | [] => refuse
  | tok :: ts =>
    if tok.kind = .param then
      parseError tok.span
        s!"${tok.value} only goes in a where, compared with ==, !=, =~, !~, contains or startswith, or in search ${tok.value}"
    else if tok.kind = .number then .ok (⟨tok.span, .number, tok.value⟩, ts)
    else refuse

/-- summarize's columns after `by`, if that is next. -/
def columnsBy (ts : List Token) : Parsed (List Syntax.NamedExpr) :=
  match ts with
  | [] => .ok ([], [])
  | tok :: rest =>
    if atWord "by" (tok :: rest) then namedExprs src true (rest.length + 1) tok rest
    else .ok ([], tok :: rest)

/-- The word `by`, or a mistake. -/
def wordBy (refuse : Parsed Token) : List Token → Parsed Token
  | [] => refuse
  | tok :: ts => if atWord "by" (tok :: ts) then .ok (tok, ts) else refuse

/-- What search looks for: a quoted string or a filter. -/
def searchStage (pipe : Span) (keyword : Token) (ts : List Token) : Parsed Syntax.Stage :=
  let message := "search needs a quoted string or a filter, such as search \"timeout\" or search $q"
  match ts with
  | [] => parseError keyword.span message
  | term :: ts =>
    if term.kind = .string then
      .ok (.searchTextStage pipe keyword.span ⟨term.span, .string, term.value⟩, ts)
    else if term.kind = .param then
      .ok (.searchParamStage pipe keyword.span ⟨term.value, term.span⟩, ts)
    else parseError term.span message

/-- A stage after its keyword. -/
def stageOf (pipe : Span) (keyword : Token) (ts : List Token) : Parsed Syntax.Stage :=
  match keyword.value with
  | "where" =>
    if ts.isEmpty then
      parseError keyword.span "where needs a condition, such as where level == \"error\""
    else andThen (parseExpr src 0 ts) fun predicate ts =>
      .ok (.whereStage pipe keyword.span predicate, ts)
  | "search" => searchStage pipe keyword ts
  | "project" => andThen (namedExprs src true (ts.length + 1) keyword ts) fun columns ts =>
    .ok (.projectStage pipe keyword.span columns, ts)
  | "extend" => andThen (namedExprs src true (ts.length + 1) keyword ts) fun columns ts =>
    .ok (.extendStage pipe keyword.span columns, ts)
  | "summarize" =>
    andThen (if atWord "by" ts then .ok ([], ts)
      else namedExprs src true (ts.length + 1) keyword ts) fun aggregates ts =>
    andThen (columnsBy src ts) fun columnsBy ts =>
    .ok (.summarizeStage pipe keyword.span aggregates columnsBy, ts)
  | "sort" | "order" =>
    let refuse := parseError keyword.span
      (keyword.value ++ " needs by, as in " ++ keyword.value ++ " by time desc")
    andThen (wordBy refuse ts) fun by' ts =>
    andThen (sortKeys src by' (ts.length + 1) ts) fun keys ts =>
    .ok (.sortStage pipe (.union [keyword.span, by'.span]) keys, ts)
  | "take" | "limit" => andThen (count keyword ts) fun count ts =>
    .ok (.takeStage pipe keyword.span count, ts)
  | "top" => andThen (count keyword ts) fun count ts =>
    andThen (wordBy (parseError (.union [keyword.span, count.span])
      "top needs by, as in top 10 by duration") ts) fun by' ts =>
    andThen (sortKey src by' ts) fun key ts =>
    .ok (.topStage pipe keyword.span count key, ts)
  | "count" => .ok (.countStage pipe keyword.span, ts)
  | "distinct" => andThen (namedExprs src false (ts.length + 1) keyword ts) fun columns ts =>
    .ok (.distinctStage pipe keyword.span columns, ts)
  | value => parseError keyword.span ("unknown stage " ++ src.quote value)

/-- One stage, after its pipe if it has one. -/
def stage (pipe : Span) (ts : List Token) : Parsed Syntax.Stage :=
  let refuse := parseError (src.nextSpan ts)
    ("expected a stage, such as where, got " ++ src.describe ts)
  match ts with
  | [] => refuse
  | keyword :: rest => if keyword.kind = .identifier then stageOf src pipe keyword rest else refuse

/-- The stages to the end of the Query, with a pipe between each two. -/
def stages : ℕ → Span → List Token → Parsed (List Syntax.Stage)
  | 0, _, _ => tooDeep
  | n + 1, pipe, ts => andThen (stage src pipe ts) fun s ts =>
    match ts with
    | [] => .ok ([s], [])
    | tok :: rest =>
      if tok.kind = .pipe then andThen (stages n tok.span rest) fun others ts => .ok (s :: others, ts)
      else parseError tok.span
        ("expected | or the end of the Query, got " ++ src.describe (tok :: rest))

/-- Whether a token names the Query's source. -/
def isSource (tok : Token) : Bool :=
  tok.kind = .identifier && tok.value = "logs" || tok.kind = .quotedIdentifier

/-- `[source |] stage { | stage }`. -/
def query (ts : List Token) : Except Error Syntax.Query :=
  match ts.find? (·.kind = .error) with
  | some tok => .error ⟨tok.span, tok.value⟩
  | none =>
    match ts with
    | [] => .ok ⟨none, []⟩
    | tok :: rest =>
      if isSource tok then
        let source : Syntax.Ident := ⟨tok.value, tok.span, false⟩
        match rest with
        | [] => .ok ⟨some source, []⟩
        | next :: rest =>
          if next.kind = .pipe then
            (stages src (rest.length + 1) next.span rest).map fun (stages, _) => ⟨some source, stages⟩
          else .error ⟨next.span, "expected | after " ++ src.quote (src.at tok.span) ++ ", got " ++
            src.describe (next :: rest)⟩
      else (stages src (ts.length + 1) .null ts).map fun (stages, _) => ⟨none, stages⟩

end SolidTrace.LogQuery.Parser

namespace SolidTrace.LogQuery

/-- Parse a Query's text. It stops at the first mistake. -/
def parse (abc : Alphabet) (text : String) : Except Error Syntax.Query :=
  Parser.query ⟨text, abc.quote⟩ (scan abc (runes text))

end SolidTrace.LogQuery
