import SolidTrace.LogQuery.QuerySpelling

/-!
# Parsing a Query inverts writing it

What the parser of Queries reads is how the tree it gives is written, and a Query's tree is read again
from any tokens it is written with.
-/

namespace SolidTrace.LogQuery

section Expressions

variable {src : Source}

/-- The tokens do not go on with what an expression could. -/
def Stops (ts : List Token) : Prop := Ends ts ∧ StopsBelow 0 ts

/-- What closes an expression in a stage also stops one. -/
theorem Closed.toStops {ts : List Token} (h : Closed ts) : Stops ts := ⟨h.ends, h.stops 0⟩

/-- A word that is no operator stops an expression. -/
theorem stops_word {tok : Token} {ts : List Token} (hkind : tok.kind = .identifier)
    (hword : wordOperators tok.value = none) (hmatches : tok.value ≠ "matches") :
    Stops (tok :: ts) := by
  refine ⟨by simp [Ends, hkind], ?_⟩
  intro op span after h
  cases ts <;> simp [binaryOperator, hkind, hword, hmatches] at h

/-- A parsed expression spells the tokens that were read. -/
theorem parseExpr_reads {ts rest : List Token} {x : Syntax.Expr}
    (h : parseExpr src 0 ts = .ok (x, rest)) :
    ∃ used, ts = used ++ rest ∧ spellsExpr src x used := by
  obtain ⟨used, hts, hx, hwf⟩ := (exprOf_sound src _ 0 ts x rest h).1
  exact ⟨used, hts, hwf, hx⟩

/-- The tokens that spell an expression are parsed as it, where what follows stops it. -/
theorem parseExpr_spelled {x : Syntax.Expr} {us rest : List Token} (h : spellsExpr src x us)
    (hrest : Stops rest) : parseExpr src 0 (us ++ rest) = .ok (x, rest) :=
  exprOf_complete src _ 0 x us rest (Nat.lt_succ_self _) h.1 h.2 hrest.1 hrest.2

/-- No expression is spelled by no tokens. -/
theorem spellsExpr_ne_nil {x : Syntax.Expr} {us : List Token} (h : spellsExpr src x us) :
    us ≠ [] := by
  obtain ⟨tok, rest, rfl, -⟩ := spells_first x us h.2 h.1
  simp

/-- The kinds of tokens an expression is written with. -/
def inExpr (kind : TokenKind) : Bool := kind != .pipe && kind != .assign && kind != .error

/-- An operator is spelled by tokens of expressions. -/
theorem SpellsOperator.inExpr {op : Operator} {span : Span} {ts : List Token}
    (h : SpellsOperator op span ts) : ∀ tok ∈ ts, inExpr tok.kind = true := by
  cases h with
  | @symbol kind op h _ value =>
    intro tok htok
    cases List.mem_singleton.mp htok
    cases kind <;> simp [symbolOperator] at h <;> rfl
  | word | negated | matchesRegex => simp [LogQuery.inExpr]

/-- The parts of a name are tokens of expressions. -/
theorem SpellsParts.inExpr {name whole : String} {span all : Span} {ts : List Token}
    (h : SpellsParts src name span whole all ts) : ∀ tok ∈ ts, inExpr tok.kind = true := by
  induction h with
  | none => simp
  | @part _ _ _ _ dot part _ hdot _ hpart _ _ ih =>
    intro tok htok
    rcases List.mem_cons.mp htok with rfl | htok
    · simp [LogQuery.inExpr, hdot]
    · rcases List.mem_cons.mp htok with rfl | htok
      · have hkind : isNamePart tok.kind = true := hpart
        generalize tok.kind = kind at hkind
        cases kind <;> simp [isNamePart] at hkind <;> rfl
      · exact ih tok htok

/-- A token of an expression before others of one. -/
theorem inExpr_cons {kind : TokenKind} {span : Span} {value : String} {ts : List Token}
    (hkind : inExpr kind = true) (h : ∀ tok ∈ ts, inExpr tok.kind = true) :
    ∀ tok ∈ ⟨kind, span, value⟩ :: ts, inExpr tok.kind = true :=
  List.forall_mem_cons.2 ⟨hkind, h⟩

/-- Two runs of tokens of expressions, one after the other. -/
theorem inExpr_append {us vs : List Token} (hu : ∀ tok ∈ us, inExpr tok.kind = true)
    (hv : ∀ tok ∈ vs, inExpr tok.kind = true) : ∀ tok ∈ us ++ vs, inExpr tok.kind = true :=
  List.forall_mem_append.2 ⟨hu, hv⟩

mutual

/-- An expression is spelled by tokens of expressions, so no pipe or semicolon is among them. -/
theorem spells_inExpr : ∀ (x : Syntax.Expr) (ts : List Token), spells src x ts →
    ∀ tok ∈ ts, inExpr tok.kind = true
  | .ident id, ts, h => by
    unfold spells spellsIdent at h
    split at h
    · subst h
      simp [inExpr]
    · obtain ⟨first, parts, rfl, hfirst, hparts, -⟩ := h
      exact List.forall_mem_cons.2 ⟨by simp [inExpr, hfirst], hparts.inExpr⟩
  | .param p, ts, h => by
    cases h
    simp [inExpr]
  | .basicLit ⟨span, kind, value⟩, ts, h => by
    cases kind with
    | bool =>
      obtain ⟨rfl, -⟩ := h
      simp [inExpr]
    | string | number | timespan | dateTime =>
      cases h
      simp [inExpr]
  | .binary x _ _ y, ts, h => by
    obtain ⟨xs, os, ys, rfl, hx, hos, hy⟩ := h
    exact inExpr_append (spells_inExpr x xs hx) (inExpr_append hos.inExpr (spells_inExpr y ys hy))
  | .inList x _ _ _ first rest rparen, ts, h => by
    obtain ⟨xs, os, value, fs, rs, rfl, hx, hos, hfirst, hrest⟩ := h
    exact inExpr_append (spells_inExpr x xs hx) (inExpr_append hos.inExpr (inExpr_cons rfl
      (inExpr_append (spells_inExpr first fs hfirst) (spellsRest_inExpr rest rparen rs hrest))))
  | .unary _ op x, ts, h => by
    obtain ⟨kind, value, xs, rfl, hsign, hx⟩ := h
    refine inExpr_cons ?_ (spells_inExpr x xs hx)
    cases kind <;> simp [signOf] at hsign <;> rfl
  | .paren _ x _, ts, h => by
    obtain ⟨value, xs, value', rfl, hx⟩ := h
    exact inExpr_cons rfl (inExpr_append (spells_inExpr x xs hx) (by simp [inExpr]))
  | .call _ _ args rparen, ts, h => by
    obtain ⟨-, value, as, rfl, has⟩ := h
    exact inExpr_cons rfl (inExpr_cons rfl (spellsArgs_inExpr args rparen as has))
  | .member x _ _, ts, h => by
    obtain ⟨-, xs, value, kind, rfl, hkind, -, -, hx⟩ := h
    refine inExpr_append (spells_inExpr x xs hx) (inExpr_cons rfl (inExpr_cons ?_ (by simp)))
    cases kind <;> simp [isNamePart] at hkind <;> rfl
  | .index x _ index _, ts, h => by
    obtain ⟨xs, hx, h⟩ := h
    rcases h with ⟨tok, rfl, hkind, -⟩ | ⟨value, is, value', rfl, hindex⟩
    · exact inExpr_append (spells_inExpr x xs hx) (by simp [inExpr, hkind])
    · exact inExpr_append (spells_inExpr x xs hx) (inExpr_cons rfl
        (inExpr_append (spells_inExpr index is hindex) (by simp [inExpr])))

/-- Arguments after a comma are spelled by tokens of expressions. -/
theorem spellsRest_inExpr : ∀ (es : List Syntax.Expr) (rparen : Span) (ts : List Token),
    spellsRest src es rparen ts → ∀ tok ∈ ts, inExpr tok.kind = true
  | [], _, ts, h => by
    obtain ⟨value, rfl⟩ := h
    simp [inExpr]
  | e :: es, rparen, ts, h => by
    obtain ⟨span, value, xs, rs, rfl, he, hes⟩ := h
    exact inExpr_cons rfl (inExpr_append (spells_inExpr e xs he) (spellsRest_inExpr es rparen rs hes))

/-- Arguments are spelled by tokens of expressions. -/
theorem spellsArgs_inExpr : ∀ (es : List Syntax.Expr) (rparen : Span) (ts : List Token),
    spellsArgs src es rparen ts → ∀ tok ∈ ts, inExpr tok.kind = true
  | [], _, ts, h => by
    obtain ⟨value, rfl⟩ := h
    simp [inExpr]
  | e :: es, rparen, ts, h => by
    obtain ⟨xs, rs, rfl, he, hes⟩ := h
    exact inExpr_append (spells_inExpr e xs he) (spellsRest_inExpr es rparen rs hes)

end

end Expressions

section Reads

variable {src : Source}

/-- The name of a column is read before its expression, where one may stand. -/
theorem columnName_reads {naming : Bool} {ts rest : List Token} {name : Option Syntax.Ident}
    {x : Syntax.Expr} {used : List Token}
    (h : Parser.columnName src naming ts = .ok (name, used ++ rest)) (hx : spellsExpr src x used) :
    ∃ us, ts = us ++ rest ∧ spellsColumn src naming ⟨name, x⟩ us := by
  unfold Parser.columnName at h
  split at h
  next first eq ts =>
    split at h
    next hassign =>
      split at h
      next hkind =>
        cases h
        refine ⟨first :: eq :: used, rfl, hassign.1, eq.span, eq.value, used, ?_, hx⟩
        obtain ⟨kind, span, value⟩ := first
        obtain ⟨ekind, espan, evalue⟩ := eq
        obtain ⟨-, rfl⟩ := hassign
        rcases hkind with rfl | rfl <;> rfl
      · exact absurd h parseError_ne_ok
    · rw [Except.ok.injEq, Prod.mk.injEq] at h
      obtain ⟨rfl, hts⟩ := h
      exact ⟨used, hts, hx⟩
  · cases h
    exact ⟨used, rfl, hx⟩

/-- Columns that are read are spelled by what was read. -/
theorem namedExprs_reads {naming : Bool} {n : ℕ} {after : Token} {ts rest : List Token}
    {columns : List Syntax.NamedExpr}
    (h : Parser.namedExprs src naming n after ts = .ok (columns, rest)) :
    ∃ used, ts = used ++ rest ∧ spellsColumns src naming columns used := by
  induction n generalizing after ts columns with
  | zero => exact absurd h tooDeep_ne_ok
  | succ n ih =>
    unfold Parser.namedExprs at h
    split at h
    · exact absurd h parseError_ne_ok
    · rw [andThen_eq_ok] at h
      obtain ⟨name, ts₁, hname, h⟩ := h
      rw [andThen_eq_ok] at h
      obtain ⟨x, ts₂, hx, h⟩ := h
      obtain ⟨used, rfl, hspell⟩ := parseExpr_reads hx
      obtain ⟨us, rfl, hcolumn⟩ := columnName_reads hname hspell
      cases ts₂ with
      | nil =>
        cases h
        exact ⟨us, rfl, hcolumn⟩
      | cons tok ts =>
        dsimp only at h
        split at h
        next hcomma =>
          rw [andThen_eq_ok] at h
          obtain ⟨others, ts₃, hothers, h⟩ := h
          cases h
          obtain ⟨vs, rfl, hspelled⟩ := ih hothers
          obtain ⟨kind, span, value⟩ := tok
          cases hcomma
          cases others with
          | nil => exact hspelled.elim
          | cons e es =>
            exact ⟨us ++ ⟨.comma, span, value⟩ :: vs, by simp, span, value, us, vs, rfl, hcolumn,
              hspelled⟩
        · cases h
          exact ⟨us, rfl, hcolumn⟩

/-- A word is next when it is the first token. -/
theorem atWord_eq_true {word : String} {ts : List Token} :
    Parser.atWord word ts = true ↔ ∃ span rest, ts = ⟨.identifier, span, word⟩ :: rest := by
  cases ts with
  | nil => simp [Parser.atWord]
  | cons tok ts =>
    obtain ⟨kind, span, value⟩ := tok
    simp only [Parser.atWord, Bool.and_eq_true, decide_eq_true_eq, List.cons.injEq, Token.mk.injEq]
    constructor
    · rintro ⟨rfl, rfl⟩
      exact ⟨span, ts, ⟨rfl, rfl, rfl⟩, rfl⟩
    · rintro ⟨_, _, ⟨rfl, rfl, rfl⟩, rfl⟩
      exact ⟨rfl, rfl⟩

/-- A direction that is read is spelled by what was read. -/
theorem direction_reads {ts : List Token} {asc : Bool} {span : Span} {rest : List Token}
    (h : Parser.direction ts = ((asc, span), rest)) :
    ∃ used, ts = used ++ rest ∧ SpellsDirection asc span used := by
  unfold Parser.direction at h
  split at h
  · cases h
    exact ⟨[], rfl, .none⟩
  next tok ts =>
    split at h
    next hword =>
      cases h
      rcases Bool.or_eq_true_iff.mp hword with hasc | hdesc
      · obtain ⟨span, rest, ⟨rfl, rfl⟩⟩ := atWord_eq_true.mp hasc
        exact ⟨[⟨.identifier, span, "asc"⟩], rfl, .asc span⟩
      · obtain ⟨span, rest, ⟨rfl, rfl⟩⟩ := atWord_eq_true.mp hdesc
        exact ⟨[⟨.identifier, span, "desc"⟩], rfl, .desc span⟩
    · cases h
      exact ⟨[], rfl, .none⟩

/-- The place of nulls that is read is spelled by what was read. -/
theorem nullsOrder_reads {ts rest : List Token} {nulls : Option (Syntax.Nulls × Span)} (span : Span)
    (h : Parser.nullsOrder ts = .ok (nulls, rest)) : ∃ used, ts = used ++ rest ∧
      SpellsNulls span (nulls.map Prod.fst) ((nulls.map Prod.snd).getD span) used := by
  unfold Parser.nullsOrder at h
  split at h
  next tok which ts =>
    split at h
    next hnulls =>
      obtain ⟨nspan, rest', heq⟩ := atWord_eq_true.mp hnulls
      cases heq
      split at h
      next hfirst =>
        obtain ⟨wspan, rest'', heq⟩ := atWord_eq_true.mp hfirst
        cases heq
        cases h
        exact ⟨_, rfl, .first nspan wspan⟩
      · split at h
        next hlast =>
          obtain ⟨wspan, rest'', heq⟩ := atWord_eq_true.mp hlast
          cases heq
          cases h
          exact ⟨_, rfl, .last nspan wspan⟩
        · exact absurd h parseError_ne_ok
    · cases h
      exact ⟨[], rfl, .none⟩
  · split at h
    · exact absurd h parseError_ne_ok
    · cases h
      exact ⟨[], rfl, .none⟩
  · cases h
    exact ⟨[], rfl, .none⟩

/-- A sort key that is read is spelled by what was read. -/
theorem sortKey_reads {after : Token} {ts rest : List Token} {key : Syntax.SortKey}
    (h : Parser.sortKey src after ts = .ok (key, rest)) :
    ∃ used, ts = used ++ rest ∧ spellsKey src key used := by
  unfold Parser.sortKey at h
  split at h
  · exact absurd h parseError_ne_ok
  · rw [andThen_eq_ok] at h
    obtain ⟨x, ts₁, hx, h⟩ := h
    obtain ⟨us, rfl, hspell⟩ := parseExpr_reads hx
    generalize hdirection : Parser.direction ts₁ = found at h
    obtain ⟨⟨asc, span⟩, ts₂⟩ := found
    obtain ⟨ds, rfl, hds⟩ := direction_reads hdirection
    rw [andThen_eq_ok] at h
    obtain ⟨nulls, ts₃, hnulls, h⟩ := h
    obtain ⟨ns, rfl, hns⟩ := nullsOrder_reads span hnulls
    cases h
    exact ⟨us ++ (ds ++ ns), by simp, us, ds, ns, span, rfl, hspell, hds, hns⟩

/-- Sort keys that are read are spelled by what was read, commas between them. -/
theorem sortKeys_reads {by' : Token} {n : ℕ} {ts rest : List Token} {keys : List Syntax.SortKey}
    (h : Parser.sortKeys src by' n ts = .ok (keys, rest)) :
    ∃ used, ts = used ++ rest ∧ separated .comma (spellsKey src) keys used := by
  induction n generalizing ts keys with
  | zero => exact absurd h tooDeep_ne_ok
  | succ n ih =>
    unfold Parser.sortKeys at h
    rw [andThen_eq_ok] at h
    obtain ⟨key, ts₁, hkey, h⟩ := h
    obtain ⟨us, rfl, hspell⟩ := sortKey_reads hkey
    split at h
    · cases h
      exact ⟨us, rfl, hspell⟩
    next tok ts =>
      split at h
      next hcomma =>
        rw [andThen_eq_ok] at h
        obtain ⟨others, ts₂, hothers, h⟩ := h
        cases h
        obtain ⟨vs, rfl, hspelled⟩ := ih hothers
        obtain ⟨kind, span, value⟩ := tok
        cases hcomma
        cases others with
        | nil => exact hspelled.elim
        | cons k ks =>
          exact ⟨us ++ ⟨.comma, span, value⟩ :: vs, by simp, span, value, us, vs, rfl, hspell,
            hspelled⟩
      · cases h
        exact ⟨us, rfl, hspell⟩

/-- A count that is read is the number token it was read from. -/
theorem count_reads {keyword : Token} {ts rest : List Token} {n : Syntax.BasicLit}
    (h : Parser.count keyword ts = .ok (n, rest)) :
    n.kind = .number ∧ ts = ⟨.number, n.span, n.value⟩ :: rest := by
  unfold Parser.count at h
  cases ts with
  | nil => exact absurd h parseError_ne_ok
  | cons tok ts =>
    obtain ⟨kind, span, value⟩ := tok
    dsimp only at h
    split at h
    · exact absurd h parseError_ne_ok
    · split at h
      next hkind =>
        cases hkind
        cases h
        exact ⟨rfl, rfl⟩
      · exact absurd h parseError_ne_ok

/-- The word by is read where it stands, and refused elsewhere. -/
theorem wordBy_reads {refuse : Parsed Token} {ts rest : List Token} {by' : Token}
    (hrefuse : ∀ p, refuse ≠ .ok p) (h : Parser.wordBy refuse ts = .ok (by', rest)) :
    ∃ span, by' = ⟨.identifier, span, "by"⟩ ∧ ts = by' :: rest := by
  unfold Parser.wordBy at h
  split at h
  · exact absurd h (hrefuse _)
  next tok ts =>
    split at h
    next hword =>
      obtain ⟨span, rest', heq⟩ := atWord_eq_true.mp hword
      cases heq
      cases h
      exact ⟨span, rfl, rfl⟩
    · exact absurd h (hrefuse _)

/-- The columns after by are spelled by what was read, and none of it where there are none. -/
theorem columnsBy_reads {ts rest : List Token} {columns : List Syntax.NamedExpr}
    (h : Parser.columnsBy src ts = .ok (columns, rest)) :
    ∃ used, ts = used ++ rest ∧ spellsBy src columns used := by
  unfold Parser.columnsBy at h
  split at h
  · cases h
    exact ⟨[], rfl, .inl ⟨rfl, rfl⟩⟩
  next tok ts =>
    split at h
    next hword =>
      obtain ⟨span, rest', heq⟩ := atWord_eq_true.mp hword
      cases heq
      obtain ⟨us, rfl, hspell⟩ := namedExprs_reads h
      exact ⟨_ :: us, rfl, .inr ⟨span, us, rfl, hspell⟩⟩
    · cases h
      exact ⟨[], rfl, .inl ⟨rfl, rfl⟩⟩

/-- One thing or more is spelled by one token or more. -/
theorem separated_ne_nil {α : Type} {kind : TokenKind} {spell : α → List Token → Prop}
    {as : List α} {ts : List Token} (hspell : ∀ a us, spell a us → us ≠ [])
    (h : separated kind spell as ts) : ts ≠ [] := by
  match as with
  | [] => exact h.elim
  | [a] => exact hspell a ts h
  | a :: b :: rest =>
    obtain ⟨span, value, us, vs, rfl, -, -⟩ := h
    simp

/-- A column is spelled by one token or more. -/
theorem spellsColumn_ne_nil {naming : Bool} {e : Syntax.NamedExpr} {us : List Token}
    (h : spellsColumn src naming e us) : us ≠ [] := by
  unfold spellsColumn at h
  split at h
  · exact spellsExpr_ne_nil h
  · obtain ⟨-, span, value, us, rfl, -⟩ := h
    simp

/-- Columns are spelled by one token or more. -/
theorem spellsColumns_ne_nil {naming : Bool} {columns : List Syntax.NamedExpr} {us : List Token}
    (h : spellsColumns src naming columns us) : us ≠ [] :=
  separated_ne_nil (fun _ _ => spellsColumn_ne_nil) h

/-- What comes next is among the tokens of the stage, if it has any. -/
theorem atWord_append {word : String} {us rest : List Token} (h : us ≠ []) :
    Parser.atWord word (us ++ rest) = Parser.atWord word us := by
  cases us with
  | nil => exact absurd rfl h
  | cons tok us => rfl

/-- A summarize stage that is read is spelled by what was read. -/
theorem summarizeStage_reads {pipe span : Span} {ts rest : List Token} {s : Syntax.Stage}
    (h : (andThen (if Parser.atWord "by" ts then .ok ([], ts) else
      Parser.namedExprs src true (ts.length + 1) ⟨.identifier, span, "summarize"⟩ ts) fun aggregates ts =>
      andThen (Parser.columnsBy src ts) fun columnsBy ts =>
      .ok (.summarizeStage pipe span aggregates columnsBy, ts)) = .ok (s, rest)) :
    ∃ used, ts = used ++ rest ∧ s.pipe = pipe ∧
      spellsStage src s (⟨.identifier, span, "summarize"⟩ :: used) := by
  rw [andThen_eq_ok] at h
  obtain ⟨aggregates, ts₁, haggregates, h⟩ := h
  rw [andThen_eq_ok] at h
  obtain ⟨columnsBy, ts₂, hby, h⟩ := h
  cases h
  obtain ⟨vs, rfl, hvs⟩ := columnsBy_reads hby
  split at haggregates
  next hword =>
    cases haggregates
    have hne : vs ≠ [] := by
      rintro rfl
      rcases hvs with ⟨rfl, -⟩ | ⟨span, us, hvs, -⟩
      · obtain ⟨bspan, rest', heq⟩ := atWord_eq_true.mp hword
        rw [List.nil_append] at heq
        subst heq
        simp only [List.nil_append, Parser.columnsBy, Parser.atWord] at hby
        obtain ⟨us, -, hus⟩ := namedExprs_reads hby
        exact hus
      · cases hvs
    exact ⟨vs, rfl, rfl, [], vs, rfl, hne, .inl ⟨rfl, rfl⟩, hvs⟩
  next hword =>
    obtain ⟨us, rfl, hus⟩ := namedExprs_reads haggregates
    have hne := spellsColumns_ne_nil hus
    rw [Bool.not_eq_true, atWord_append hne] at hword
    exact ⟨us ++ vs, by simp, rfl, us, vs, rfl, by simp [hne], .inr ⟨hus, hword⟩, hvs⟩

/-- A search stage that is read is spelled by what was read. -/
theorem searchStage_reads {pipe span : Span} {ts rest : List Token} {s : Syntax.Stage}
    (h : Parser.searchStage pipe ⟨.identifier, span, "search"⟩ ts = .ok (s, rest)) :
    ∃ used, ts = used ++ rest ∧ s.pipe = pipe ∧
      spellsStage src s (⟨.identifier, span, "search"⟩ :: used) := by
  unfold Parser.searchStage at h
  cases ts with
  | nil => exact absurd h parseError_ne_ok
  | cons term ts =>
    obtain ⟨tkind, tspan, tvalue⟩ := term
    dsimp only at h
    split at h
    next hterm =>
      cases hterm
      cases h
      exact ⟨[_], rfl, rfl, rfl, rfl⟩
    · split at h
      next hterm =>
        cases hterm
        cases h
        exact ⟨[_], rfl, rfl, rfl⟩
      · exact absurd h parseError_ne_ok

/-- A sort stage that is read, by either of its words, is spelled by what was read. -/
theorem sortStage_reads {pipe span : Span} {word : String} (hword : word = "sort" ∨ word = "order")
    {refuse : Parsed Token} (hrefuse : ∀ p, refuse ≠ .ok p) {ts rest : List Token}
    {s : Syntax.Stage}
    (h : (andThen (Parser.wordBy refuse ts) fun by' ts =>
      andThen (Parser.sortKeys src by' (ts.length + 1) ts) fun keys ts =>
      .ok (.sortStage pipe (.union [span, by'.span]) keys, ts)) = .ok (s, rest)) :
    ∃ used, ts = used ++ rest ∧ s.pipe = pipe ∧
      spellsStage src s (⟨.identifier, span, word⟩ :: used) := by
  rw [andThen_eq_ok] at h
  obtain ⟨by', ts₁, hby, h⟩ := h
  obtain ⟨bspan, rfl, rfl⟩ := wordBy_reads hrefuse hby
  rw [andThen_eq_ok] at h
  obtain ⟨keys, ts₂, hkeys, h⟩ := h
  obtain ⟨us, rfl, hspell⟩ := sortKeys_reads hkeys
  cases h
  exact ⟨_ :: us, rfl, rfl, word, span, bspan, us, hword, rfl, rfl, hspell⟩

/-- A take stage that is read, by either of its words, is spelled by what was read. -/
theorem takeStage_reads {pipe span : Span} {word : String} (hword : word = "take" ∨ word = "limit")
    {ts rest : List Token} {s : Syntax.Stage}
    (h : (andThen (Parser.count ⟨.identifier, span, word⟩ ts) fun count ts =>
      .ok (.takeStage pipe span count, ts)) = .ok (s, rest)) :
    ∃ used, ts = used ++ rest ∧ s.pipe = pipe ∧
      spellsStage src s (⟨.identifier, span, word⟩ :: used) := by
  rw [andThen_eq_ok] at h
  obtain ⟨n, ts₁, hn, h⟩ := h
  obtain ⟨hkind, rfl⟩ := count_reads hn
  cases h
  exact ⟨[_], rfl, rfl, word, hword, hkind, rfl⟩

/-- The stage that a keyword starts is spelled by what was read. -/
theorem stageOf_reads {pipe span : Span} {value : String} {ts rest : List Token} {s : Syntax.Stage}
    (h : Parser.stageOf src pipe ⟨.identifier, span, value⟩ ts = .ok (s, rest)) :
    ∃ used, ts = used ++ rest ∧ s.pipe = pipe ∧
      spellsStage src s (⟨.identifier, span, value⟩ :: used) := by
  unfold Parser.stageOf at h
  dsimp only at h
  split at h
  next =>
    split at h
    · exact absurd h parseError_ne_ok
    · rw [andThen_eq_ok] at h
      obtain ⟨x, ts₁, hx, h⟩ := h
      obtain ⟨us, rfl, hspell⟩ := parseExpr_reads hx
      cases h
      exact ⟨us, rfl, rfl, us, rfl, hspell⟩
  next => exact searchStage_reads h
  next =>
    rw [andThen_eq_ok] at h
    obtain ⟨columns, ts₁, hcolumns, h⟩ := h
    obtain ⟨us, rfl, hspell⟩ := namedExprs_reads hcolumns
    cases h
    exact ⟨us, rfl, rfl, us, rfl, hspell⟩
  next =>
    rw [andThen_eq_ok] at h
    obtain ⟨columns, ts₁, hcolumns, h⟩ := h
    obtain ⟨us, rfl, hspell⟩ := namedExprs_reads hcolumns
    cases h
    exact ⟨us, rfl, rfl, us, rfl, hspell⟩
  next => exact summarizeStage_reads h
  next => exact sortStage_reads (.inl rfl) (fun _ => parseError_ne_ok) h
  next => exact sortStage_reads (.inr rfl) (fun _ => parseError_ne_ok) h
  next => exact takeStage_reads (.inl rfl) h
  next => exact takeStage_reads (.inr rfl) h
  next =>
    rw [andThen_eq_ok] at h
    obtain ⟨n, ts₁, hn, h⟩ := h
    obtain ⟨hkind, rfl⟩ := count_reads hn
    rw [andThen_eq_ok] at h
    obtain ⟨by', ts₂, hby, h⟩ := h
    obtain ⟨bspan, rfl, rfl⟩ := wordBy_reads (fun _ => parseError_ne_ok) hby
    rw [andThen_eq_ok] at h
    obtain ⟨key, ts₃, hkey, h⟩ := h
    obtain ⟨us, rfl, hspell⟩ := sortKey_reads hkey
    cases h
    exact ⟨_ :: _ :: us, rfl, rfl, bspan, us, hkind, rfl, hspell⟩
  next =>
    cases h
    exact ⟨[], rfl, rfl, rfl⟩
  next =>
    rw [andThen_eq_ok] at h
    obtain ⟨columns, ts₁, hcolumns, h⟩ := h
    obtain ⟨us, rfl, hspell⟩ := namedExprs_reads hcolumns
    cases h
    exact ⟨us, rfl, rfl, us, rfl, hspell⟩
  next => exact absurd h parseError_ne_ok

/-- A stage that is read is spelled by what was read. -/
theorem stage_reads {pipe : Span} {ts rest : List Token} {s : Syntax.Stage}
    (h : Parser.stage src pipe ts = .ok (s, rest)) :
    ∃ used, ts = used ++ rest ∧ s.pipe = pipe ∧ spellsStage src s used := by
  unfold Parser.stage at h
  cases ts with
  | nil => exact absurd h parseError_ne_ok
  | cons keyword ts =>
    obtain ⟨kind, span, value⟩ := keyword
    dsimp only at h
    split at h
    next hkind =>
      cases hkind
      obtain ⟨us, rfl, hpipe, hspell⟩ := stageOf_reads h
      exact ⟨_ :: us, rfl, hpipe, hspell⟩
    · exact absurd h parseError_ne_ok

/-- The stages are read to the end, and each is spelled by its part of the text. -/
theorem stages_reads {n : ℕ} {pipe : Span} {ts rest : List Token} {stages : List Syntax.Stage}
    (h : Parser.stages src n pipe ts = .ok (stages, rest)) : rest = [] ∧
      ∃ s others us vs, stages = s :: others ∧ s.pipe = pipe ∧ ts = us ++ vs ∧
        spellsStage src s us ∧ spellsPiped src others vs := by
  induction n generalizing pipe ts stages with
  | zero => exact absurd h tooDeep_ne_ok
  | succ n ih =>
    unfold Parser.stages at h
    rw [andThen_eq_ok] at h
    obtain ⟨s, ts₁, hs, h⟩ := h
    obtain ⟨us, rfl, hpipe, hspell⟩ := stage_reads hs
    split at h
    · cases h
      exact ⟨rfl, s, [], us, [], rfl, hpipe, rfl, hspell, rfl⟩
    next tok ts =>
      obtain ⟨kind, span, value⟩ := tok
      dsimp only at h
      split at h
      next hkind =>
        cases hkind
        rw [andThen_eq_ok] at h
        obtain ⟨others, ts₂, hothers, h⟩ := h
        cases h
        obtain ⟨hrest, s', others', us', vs', rfl, hpipe', rfl, hspell', hspelled⟩ := ih hothers
        subst hpipe'
        exact ⟨hrest, s, _, us, _, rfl, hpipe, rfl, hspell, value, us', vs', rfl, hspell', hspelled⟩
      · exact absurd h parseError_ne_ok

/-- The tokens of a Query that parses are how its tree is written. -/
theorem query_reads {ts : List Token} {q : Syntax.Query} (h : Parser.query src ts = .ok q) :
    spellsQuery src q ts := by
  unfold Parser.query at h
  split at h
  · cases h
  · cases ts with
    | nil =>
      cases h
      rfl
    | cons tok rest =>
      obtain ⟨kind, span, value⟩ := tok
      dsimp only at h
      split at h
      next hsource =>
        have hnamed : kind = .identifier ∧ value = "logs" ∨ kind = .quotedIdentifier := by
          simpa [Parser.isSource] using hsource
        cases rest with
        | nil =>
          cases h
          exact ⟨rfl, kind, [], rfl, hnamed, rfl⟩
        | cons next' rest' =>
          obtain ⟨nkind, nspan, nvalue⟩ := next'
          dsimp only at h
          split at h
          next hpipe =>
            cases hpipe
            cases hstages : Parser.stages src (rest'.length + 1) nspan rest' with
            | error e =>
              rw [hstages] at h
              cases h
            | ok found =>
              obtain ⟨stages, rest⟩ := found
              rw [hstages] at h
              cases h
              obtain ⟨-, s, others, us, vs, rfl, rfl, rfl, hspell, hspelled⟩ := stages_reads hstages
              exact ⟨rfl, kind, _, rfl, hnamed, nvalue, us, vs, rfl, hspell, hspelled⟩
          · cases h
      next hsource =>
        generalize hts : (⟨kind, span, value⟩ :: rest : List Token) = ts at h
        cases hstages : Parser.stages src (ts.length + 1) .null ts with
        | error e =>
          rw [hstages] at h
          cases h
        | ok found =>
          obtain ⟨stages, rest⟩ := found
          rw [hstages] at h
          cases h
          obtain ⟨-, s, others, us, vs, rfl, hpipe, rfl, hspell, hspelled⟩ := stages_reads hstages
          exact ⟨hpipe, us, vs, rfl, hspell, hspelled⟩

end Reads

section Spelled

variable {src : Source}

/-- What ends a stage: the end, or a pipe. -/
def EndsStage : List Token → Prop
  | [] => True
  | tok :: _ => tok.kind = .pipe

/-- What ends columns: what ends a stage, or the word `by`. -/
def EndsColumns : List Token → Prop
  | [] => True
  | tok :: _ => tok.kind = .pipe ∨ tok.kind = .identifier ∧ tok.value = "by"

/-- What ends a stage closes its last expression. -/
theorem EndsStage.closed {ts : List Token} (h : EndsStage ts) : Closed ts := by
  cases ts with
  | nil => trivial
  | cons tok ts => exact .inl h

/-- What ends a stage ends its columns. -/
theorem EndsStage.endsColumns {ts : List Token} (h : EndsStage ts) : EndsColumns ts := by
  cases ts with
  | nil => trivial
  | cons tok ts => exact .inl h

/-- What ends columns stops their last expression. -/
theorem EndsColumns.stops {ts : List Token} (h : EndsColumns ts) : Stops ts := by
  cases ts with
  | nil => exact Closed.toStops trivial
  | cons tok ts =>
    rcases h with h | ⟨hkind, hvalue⟩
    · exact Closed.toStops (.inl h)
    · exact stops_word hkind (by rw [hvalue]; rfl) (by rw [hvalue]; decide)

/-- What closes an expression is no word of the stage. -/
theorem Closed.atWord {word : String} {ts : List Token} (h : Closed ts) :
    Parser.atWord word ts = false := by
  cases ts with
  | nil => rfl
  | cons tok ts => rcases h with h | h | h | h <;> simp [Parser.atWord, h]

/-- A column that is spelled has its name read, and its expression left to read. -/
theorem columnName_spelled {naming : Bool} {e : Syntax.NamedExpr} {us rest : List Token}
    (h : spellsColumn src naming e us) (hrest : ∀ tok ts, rest = tok :: ts → tok.kind ≠ .assign) :
    ∃ vs, Parser.columnName src naming (us ++ rest) = .ok (e.name, vs ++ rest) ∧
      spellsExpr src e.x vs := by
  obtain ⟨name, x⟩ := e
  cases name with
  | none =>
    refine ⟨us, ?_, h⟩
    unfold Parser.columnName
    split
    next first eq ts heq =>
      have hassign : eq.kind ≠ .assign := by
        obtain ⟨a, us', rfl⟩ := List.exists_cons_of_ne_nil (spellsExpr_ne_nil h)
        cases us' with
        | nil => exact hrest eq ts (List.cons.inj heq).2
        | cons b us' =>
          have hb : b = eq := (List.cons.inj (List.cons.inj heq).2).1
          have hkind := spells_inExpr x _ h.2 b (by simp)
          rw [hb] at hkind
          intro hassign
          simp [inExpr, hassign] at hkind
      rw [if_neg fun hboth => hassign hboth.2, heq]
    · rfl
  | some id =>
    obtain ⟨hnaming, span, value, vs, rfl, hx⟩ := h
    refine ⟨vs, ?_, hx⟩
    obtain ⟨name, ispan, quoted⟩ := id
    subst hnaming
    cases quoted <;> simp [Parser.columnName]

/-- Columns that are spelled are read, whatever ends them. -/
theorem namedExprs_spelled {naming : Bool} {n : ℕ} {after : Token} {columns : List Syntax.NamedExpr}
    {us rest : List Token} (h : spellsColumns src naming columns us) (hn : us.length ≤ n)
    (hrest : EndsColumns rest) :
    Parser.namedExprs src naming n after (us ++ rest) = .ok (columns, rest) := by
  have hend : ∀ tok ts, rest = tok :: ts → tok.kind ≠ .assign ∧ tok.kind ≠ .comma := by
    rintro tok ts rfl
    rcases hrest with h | ⟨h, -⟩ <;> simp [h]
  induction n generalizing after columns us with
  | zero =>
    have hne := spellsColumns_ne_nil h
    simp at hn
    exact absurd hn hne
  | succ n ih =>
    have hne := spellsColumns_ne_nil h
    have hsome : (us ++ rest).isEmpty = false := by simp [hne]
    unfold Parser.namedExprs
    rw [hsome]
    match columns with
    | [] => exact h.elim
    | [e] =>
      obtain ⟨vs, hname, hx⟩ := columnName_spelled h fun tok ts h => (hend tok ts h).1
      rw [hname, andThen_ok, parseExpr_spelled hx hrest.stops]
      cases rest with
      | nil => rfl
      | cons tok ts =>
        simp only [andThen_ok, if_neg (hend tok ts rfl).2]
        rfl
    | e :: f :: others =>
      obtain ⟨span, value, ws, vs, rfl, he, hothers⟩ := h
      have hlength : vs.length ≤ n := by
        simp only [List.length_append, List.length_cons] at hn
        omega
      obtain ⟨xs, hname, hx⟩ := @columnName_spelled src naming e ws
        (⟨.comma, span, value⟩ :: (vs ++ rest)) he (by rintro _ _ ⟨rfl, rfl⟩; simp)
      have hread := @parseExpr_spelled src e.x xs (⟨.comma, span, value⟩ :: (vs ++ rest)) hx
        (Closed.toStops (.inr (.inl rfl)))
      rw [List.append_assoc, List.cons_append, hname, andThen_ok, hread]
      simp only [andThen_ok, if_true, ih hothers hlength]
      rfl

/-- A direction that is spelled is read, unless another one follows. -/
theorem SpellsDirection.spelled {asc : Bool} {span : Span} {ds rest : List Token}
    (h : SpellsDirection asc span ds)
    (hrest : Parser.atWord "asc" rest = false ∧ Parser.atWord "desc" rest = false) :
    Parser.direction (ds ++ rest) = ((asc, span), rest) := by
  cases h with
  | none =>
    unfold Parser.direction
    rw [List.nil_append]
    cases rest with
    | nil => rfl
    | cons tok ts => simp [hrest.1, hrest.2]
  | asc span => rfl
  | desc span => rfl

/-- A place of nulls that is spelled is read, unless another one follows. -/
theorem SpellsNulls.spelled {span endSpan : Span} {nulls : Option Syntax.Nulls}
    {ns rest : List Token} (h : SpellsNulls span nulls endSpan ns)
    (hrest : Parser.atWord "nulls" rest = false) :
    ∃ found, Parser.nullsOrder (ns ++ rest) = .ok (found, rest) ∧ found.map Prod.fst = nulls ∧
      (found.map Prod.snd).getD span = endSpan := by
  cases h with
  | none =>
    refine ⟨Option.none, ?_, rfl, rfl⟩
    unfold Parser.nullsOrder
    rw [List.nil_append]
    split
    · rw [hrest]
      rfl
    · rw [hrest]
      rfl
    · rfl
  | first _ => exact ⟨some (.first, endSpan), rfl, rfl, rfl⟩
  | last _ => exact ⟨some (.last, endSpan), rfl, rfl, rfl⟩

/-- What follows a sort key's expression is its direction, or what ends the key. -/
theorem SpellsNulls.stops {span endSpan dspan : Span} {asc : Bool} {nulls : Option Syntax.Nulls}
    {ds ns rest : List Token} (hds : SpellsDirection asc dspan ds)
    (hns : SpellsNulls span nulls endSpan ns) (hrest : Closed rest) : Stops (ds ++ (ns ++ rest)) := by
  cases hds with
  | none =>
    cases hns with
    | none => exact hrest.toStops
    | first | last => exact stops_word rfl rfl (by simp)
  | asc | desc => exact stops_word rfl rfl (by simp)

/-- Nothing but a place of nulls starts with its word. -/
theorem SpellsNulls.atWord {span endSpan : Span} {nulls : Option Syntax.Nulls} {ns rest : List Token}
    {word : String} (h : SpellsNulls span nulls endSpan ns) (hword : word ≠ "nulls")
    (hrest : Closed rest) : Parser.atWord word (ns ++ rest) = false := by
  cases h with
  | none => exact hrest.atWord
  | first | last => simp [Parser.atWord, hword.symm]

/-- A sort key that is spelled is read. -/
theorem sortKey_spelled {after : Token} {key : Syntax.SortKey} {us rest : List Token}
    (h : spellsKey src key us) (hrest : Closed rest) :
    Parser.sortKey src after (us ++ rest) = .ok (key, rest) := by
  obtain ⟨x, asc, nulls, endSpan⟩ := key
  obtain ⟨xs, ds, ns, span, rfl, hx, hds, hns⟩ := h
  have hsome : ((xs ++ (ds ++ ns)) ++ rest).isEmpty = false := by simp [spellsExpr_ne_nil hx]
  obtain ⟨found, hfound, hnulls, hspan⟩ := hns.spelled hrest.atWord
  have hdirection := hds.spelled
    ⟨hns.atWord (by decide) hrest, (hns.atWord (by decide) hrest : Parser.atWord "desc" _ = false)⟩
  unfold Parser.sortKey
  rw [hsome, List.append_assoc, List.append_assoc, parseExpr_spelled hx (hns.stops hds hrest)]
  simp only [andThen_ok, hdirection, hfound, hnulls, hspan]
  rfl

/-- A sort key is spelled by one token or more. -/
theorem spellsKey_ne_nil {key : Syntax.SortKey} {us : List Token} (h : spellsKey src key us) :
    us ≠ [] := by
  obtain ⟨xs, ds, ns, span, rfl, hx, -⟩ := h
  simp [spellsExpr_ne_nil hx]

/-- Sort keys that are spelled are read to the end of the stage. -/
theorem sortKeys_spelled {by' : Token} {n : ℕ} {keys : List Syntax.SortKey} {us rest : List Token}
    (h : separated .comma (spellsKey src) keys us) (hn : us.length ≤ n) (hrest : EndsStage rest) :
    Parser.sortKeys src by' n (us ++ rest) = .ok (keys, rest) := by
  induction n generalizing keys us with
  | zero =>
    have hne := separated_ne_nil (fun _ _ => spellsKey_ne_nil) h
    simp at hn
    exact absurd hn hne
  | succ n ih =>
    unfold Parser.sortKeys
    match keys with
    | [] => exact h.elim
    | [key] =>
      have hkey := @sortKey_spelled src by' key us rest h hrest.closed
      rw [hkey]
      cases rest with
      | nil => rfl
      | cons tok ts =>
        have hcomma : tok.kind ≠ .comma := by
          have hpipe : tok.kind = .pipe := hrest
          simp [hpipe]
        simp only [andThen_ok, if_neg hcomma]
    | key :: k :: others =>
      obtain ⟨span, value, ws, vs, rfl, hkey, hothers⟩ := h
      have hlength : vs.length ≤ n := by
        simp only [List.length_append, List.length_cons] at hn
        omega
      have hread := @sortKey_spelled src by' key ws (⟨.comma, span, value⟩ :: (vs ++ rest)) hkey
        (.inr (.inl rfl))
      rw [List.append_assoc, List.cons_append, hread]
      simp only [andThen_ok, if_true, ih hothers hlength]

/-- The columns after by, or what ends the stage, end the aggregates. -/
theorem spellsBy_endsColumns {columnsBy : List Syntax.NamedExpr} {vs rest : List Token}
    (h : spellsBy src columnsBy vs) (hrest : EndsStage rest) : EndsColumns (vs ++ rest) := by
  rcases h with ⟨-, rfl⟩ | ⟨span, us, rfl, -⟩
  · exact hrest.endsColumns
  · exact .inr ⟨rfl, rfl⟩

/-- The columns after by that are spelled are read. -/
theorem columnsBy_spelled {columnsBy : List Syntax.NamedExpr} {vs rest : List Token}
    (h : spellsBy src columnsBy vs) (hrest : EndsStage rest) :
    Parser.columnsBy src (vs ++ rest) = .ok (columnsBy, rest) := by
  unfold Parser.columnsBy
  rcases h with ⟨rfl, rfl⟩ | ⟨span, us, rfl, hspell⟩
  · cases rest with
    | nil => rfl
    | cons tok ts =>
      have hword := @Closed.atWord "by" _ hrest.closed
      simp [hword]
  · have hread := @namedExprs_spelled src true ((us ++ rest).length + 1) ⟨.identifier, span, "by"⟩
      columnsBy us rest hspell (by simp only [List.length_append]; omega) hrest.endsColumns
    simp only [List.cons_append, hread]
    rfl

/-- The aggregates that are spelled are read, none of them where by comes first. -/
theorem aggregates_spelled {aggregates columnsBy : List Syntax.NamedExpr} {keyword : Token}
    {us vs rest : List Token} (hne : us ++ vs ≠ []) (hus : spellsAggregates src aggregates us)
    (hvs : spellsBy src columnsBy vs) (hrest : EndsStage rest) :
    (if Parser.atWord "by" (us ++ (vs ++ rest)) then (.ok ([], us ++ (vs ++ rest)) : Parsed _) else
      Parser.namedExprs src true ((us ++ (vs ++ rest)).length + 1) keyword (us ++ (vs ++ rest))) =
      .ok (aggregates, vs ++ rest) := by
  rcases hus with ⟨rfl, rfl⟩ | ⟨hspell, hword⟩
  · rcases hvs with ⟨-, rfl⟩ | ⟨span, ws, rfl, -⟩
    · exact absurd rfl hne
    · rfl
  · rw [atWord_append (spellsColumns_ne_nil hspell), hword]
    exact namedExprs_spelled hspell (by simp only [List.length_append]; omega)
      (spellsBy_endsColumns hvs hrest)

/-- A count that is spelled is read. -/
theorem count_spelled {keyword : Token} {n : Syntax.BasicLit} (h : n.kind = .number)
    (rest : List Token) :
    Parser.count keyword (⟨.number, n.span, n.value⟩ :: rest) = .ok (n, rest) := by
  obtain ⟨span, kind, value⟩ := n
  cases h
  rfl

/-- The word by that is spelled is read. -/
theorem wordBy_spelled {refuse : Parsed Token} (span : Span) (rest : List Token) :
    Parser.wordBy refuse (⟨.identifier, span, "by"⟩ :: rest) =
      .ok (⟨.identifier, span, "by"⟩, rest) := rfl

/-- The columns of project, extend or distinct, to the end of the stage. -/
theorem columns_spelled {naming : Bool} {keyword : Token} {columns : List Syntax.NamedExpr}
    {us rest : List Token} (h : spellsColumns src naming columns us) (hrest : EndsStage rest) :
    Parser.namedExprs src naming ((us ++ rest).length + 1) keyword (us ++ rest) =
      .ok (columns, rest) :=
  namedExprs_spelled h (by simp only [List.length_append]; omega) hrest.endsColumns

/-- A stage that is spelled is read to its end. -/
theorem stage_spelled {s : Syntax.Stage} {us rest : List Token} (h : spellsStage src s us)
    (hrest : EndsStage rest) : Parser.stage src s.pipe (us ++ rest) = .ok (s, rest) := by
  cases s with
  | whereStage pipe keyword predicate =>
    obtain ⟨xs, rfl, hx⟩ := h
    have hsome : (xs ++ rest).isEmpty = false := by simp [spellsExpr_ne_nil hx]
    have hread := parseExpr_spelled hx hrest.closed.toStops
    simp only [Parser.stage, List.cons_append, if_true, Parser.stageOf, hsome, hread]
    rfl
  | searchTextStage pipe keyword term =>
    obtain ⟨span, kind, value⟩ := term
    obtain ⟨hkind, rfl⟩ := h
    cases hkind
    rfl
  | searchParamStage pipe keyword term =>
    cases h
    rfl
  | projectStage pipe keyword columns =>
    obtain ⟨xs, rfl, hx⟩ := h
    simp only [Parser.stage, List.cons_append, if_true, Parser.stageOf, columns_spelled hx hrest]
    rfl
  | extendStage pipe keyword columns =>
    obtain ⟨xs, rfl, hx⟩ := h
    simp only [Parser.stage, List.cons_append, if_true, Parser.stageOf, columns_spelled hx hrest]
    rfl
  | summarizeStage pipe keyword aggregates columnsBy =>
    obtain ⟨xs, ys, rfl, hne, hxs, hys⟩ := h
    simp only [Parser.stage, List.cons_append, List.append_assoc, if_true, Parser.stageOf,
      aggregates_spelled hne hxs hys hrest, andThen_ok, columnsBy_spelled hys hrest]
    rfl
  | sortStage pipe keyword keys =>
    obtain ⟨word, kspan, bspan, xs, hword, rfl, rfl, hx⟩ := h
    have hread := @sortKeys_spelled src ⟨.identifier, bspan, "by"⟩ ((xs ++ rest).length + 1) keys xs
      rest hx (by simp only [List.length_append]; omega) hrest
    rcases hword with rfl | rfl
    · simp only [Parser.stage, List.cons_append, if_true, Parser.stageOf, wordBy_spelled, andThen_ok,
        hread]
      rfl
    · simp only [Parser.stage, List.cons_append, if_true, Parser.stageOf, wordBy_spelled, andThen_ok,
        hread]
      rfl
  | takeStage pipe keyword n =>
    obtain ⟨word, hword, hkind, rfl⟩ := h
    rcases hword with rfl | rfl
    · simp only [Parser.stage, List.cons_append, List.nil_append, if_true, Parser.stageOf,
        count_spelled hkind, andThen_ok]
      rfl
    · simp only [Parser.stage, List.cons_append, List.nil_append, if_true, Parser.stageOf,
        count_spelled hkind, andThen_ok]
      rfl
  | topStage pipe keyword n key =>
    obtain ⟨span, xs, hkind, rfl, hx⟩ := h
    simp only [Parser.stage, List.cons_append, if_true, Parser.stageOf, count_spelled hkind,
      wordBy_spelled, andThen_ok, sortKey_spelled hx hrest.closed]
    rfl
  | countStage pipe keyword =>
    cases h
    rfl
  | distinctStage pipe keyword columns =>
    obtain ⟨xs, rfl, hx⟩ := h
    simp only [Parser.stage, List.cons_append, if_true, Parser.stageOf, columns_spelled hx hrest]
    rfl

/-- The stages that follow, each after its pipe, end the one before them. -/
theorem spellsPiped_endsStage {stages : List Syntax.Stage} {ts : List Token}
    (h : spellsPiped src stages ts) : EndsStage ts := by
  cases stages with
  | nil =>
    cases h
    trivial
  | cons s rest =>
    obtain ⟨value, us, vs, rfl, -⟩ := h
    rfl

/-- Stages that are spelled are read, to the last. -/
theorem stages_spelled {n : ℕ} {s : Syntax.Stage} {others : List Syntax.Stage} {us vs : List Token}
    (hs : spellsStage src s us) (hothers : spellsPiped src others vs) (hn : vs.length < n) :
    Parser.stages src n s.pipe (us ++ vs) = .ok (s :: others, []) := by
  induction n generalizing s others us vs with
  | zero => omega
  | succ n ih =>
    unfold Parser.stages
    rw [stage_spelled hs (spellsPiped_endsStage hothers), andThen_ok]
    cases others with
    | nil =>
      cases hothers
      rfl
    | cons s' others =>
      obtain ⟨value, us', vs', rfl, hs', hothers⟩ := hothers
      simp only [List.length_cons, List.length_append] at hn
      simp only [if_true, ih hs' hothers (by omega)]
      rfl

end Spelled

section Kinds

variable {src : Source}

/-- The kinds of tokens a stage is written with. -/
def inStage (kind : TokenKind) : Bool := kind != .pipe && kind != .error

/-- A token of an expression is one of a stage. -/
theorem inStage_of_inExpr {kind : TokenKind} (h : inExpr kind = true) : inStage kind = true := by
  cases kind <;> first | rfl | exact absurd h (by decide)

/-- An expression is spelled by tokens of stages. -/
theorem spellsExpr_inStage {x : Syntax.Expr} {us : List Token} (h : spellsExpr src x us) :
    ∀ tok ∈ us, inStage tok.kind = true :=
  fun tok htok => inStage_of_inExpr (spells_inExpr x us h.2 tok htok)

/-- Things between commas are spelled by tokens of stages, if each is. -/
theorem separated_inStage {α : Type} {spell : α → List Token → Prop} {as : List α} {ts : List Token}
    (hspell : ∀ a us, spell a us → ∀ tok ∈ us, inStage tok.kind = true)
    (h : separated .comma spell as ts) : ∀ tok ∈ ts, inStage tok.kind = true := by
  induction as generalizing ts with
  | nil => exact h.elim
  | cons a rest ih =>
    cases rest with
    | nil => exact hspell a ts h
    | cons b rest =>
      obtain ⟨span, value, us, vs, rfl, ha, hrest⟩ := h
      exact List.forall_mem_append.2 ⟨hspell a us ha, List.forall_mem_cons.2 ⟨rfl, ih hrest⟩⟩

/-- Columns are spelled by tokens of stages. -/
theorem spellsColumns_inStage {naming : Bool} {columns : List Syntax.NamedExpr} {us : List Token}
    (h : spellsColumns src naming columns us) : ∀ tok ∈ us, inStage tok.kind = true := by
  refine separated_inStage (fun e us he => ?_) h
  unfold spellsColumn at he
  split at he
  · exact spellsExpr_inStage he
  next id _ =>
    obtain ⟨-, span, value, vs, rfl, hx⟩ := he
    refine List.forall_mem_cons.2 ⟨?_, List.forall_mem_cons.2 ⟨rfl, spellsExpr_inStage hx⟩⟩
    cases id.quoted <;> rfl

/-- A sort key is spelled by tokens of stages. -/
theorem spellsKey_inStage {key : Syntax.SortKey} {us : List Token} (h : spellsKey src key us) :
    ∀ tok ∈ us, inStage tok.kind = true := by
  obtain ⟨x, asc, nulls, endSpan⟩ := key
  obtain ⟨xs, ds, ns, span, rfl, hx, hds, hns⟩ := h
  refine List.forall_mem_append.2 ⟨spellsExpr_inStage hx, List.forall_mem_append.2 ⟨?_, ?_⟩⟩
  · cases hds <;> simp [inStage]
  · cases hns <;> simp [inStage]

/-- A stage is spelled by tokens of stages: no pipe, no semicolon and no error is among them. -/
theorem spellsStage_inStage {s : Syntax.Stage} {us : List Token} (h : spellsStage src s us) :
    ∀ tok ∈ us, inStage tok.kind = true := by
  cases s with
  | whereStage =>
    obtain ⟨xs, rfl, hx⟩ := h
    exact List.forall_mem_cons.2 ⟨rfl, spellsExpr_inStage hx⟩
  | searchTextStage =>
    obtain ⟨-, rfl⟩ := h
    simp [inStage]
  | searchParamStage =>
    cases h
    simp [inStage]
  | projectStage | extendStage | distinctStage =>
    obtain ⟨xs, rfl, hx⟩ := h
    exact List.forall_mem_cons.2 ⟨rfl, spellsColumns_inStage hx⟩
  | summarizeStage =>
    obtain ⟨xs, ys, rfl, -, hxs, hys⟩ := h
    refine List.forall_mem_cons.2 ⟨rfl, List.forall_mem_append.2 ⟨?_, ?_⟩⟩
    · rcases hxs with ⟨-, rfl⟩ | ⟨hxs, -⟩
      · exact nofun
      · exact spellsColumns_inStage hxs
    · rcases hys with ⟨-, rfl⟩ | ⟨span, zs, rfl, hzs⟩
      · exact nofun
      · exact List.forall_mem_cons.2 ⟨rfl, spellsColumns_inStage hzs⟩
  | sortStage =>
    obtain ⟨word, kspan, bspan, xs, -, rfl, -, hx⟩ := h
    exact List.forall_mem_cons.2 ⟨rfl, List.forall_mem_cons.2
      ⟨rfl, separated_inStage (fun _ _ => spellsKey_inStage) hx⟩⟩
  | takeStage =>
    obtain ⟨word, -, -, rfl⟩ := h
    simp [inStage]
  | topStage =>
    obtain ⟨span, xs, -, rfl, hx⟩ := h
    exact List.forall_mem_cons.2 ⟨rfl, List.forall_mem_cons.2 ⟨rfl, List.forall_mem_cons.2
      ⟨rfl, spellsKey_inStage hx⟩⟩⟩
  | countStage =>
    cases h
    simp [inStage]

/-- Stages are spelled without an error. -/
theorem spellsPiped_ne_error {stages : List Syntax.Stage} {ts : List Token}
    (h : spellsPiped src stages ts) : ∀ tok ∈ ts, tok.kind ≠ .error := by
  induction stages generalizing ts with
  | nil =>
    cases h
    exact nofun
  | cons s rest ih =>
    obtain ⟨value, us, vs, rfl, hs, hrest⟩ := h
    refine List.forall_mem_cons.2 ⟨by simp, List.forall_mem_append.2 ⟨fun tok htok => ?_, ih hrest⟩⟩
    have hkind := spellsStage_inStage hs tok htok
    intro herror
    simp [inStage, herror] at hkind

/-- The words a stage can start with. -/
def stageWords : Syntax.Stage → List String
  | .whereStage _ _ _ => ["where"]
  | .searchTextStage _ _ _ => ["search"]
  | .searchParamStage _ _ _ => ["search"]
  | .projectStage _ _ _ => ["project"]
  | .extendStage _ _ _ => ["extend"]
  | .summarizeStage _ _ _ _ => ["summarize"]
  | .sortStage _ _ _ => ["sort", "order"]
  | .takeStage _ _ _ => ["take", "limit"]
  | .topStage _ _ _ _ => ["top"]
  | .countStage _ _ => ["count"]
  | .distinctStage _ _ _ => ["distinct"]

/-- A stage starts with its keyword. -/
theorem spellsStage_word {s : Syntax.Stage} {us : List Token}
    (h : spellsStage src s us) :
    ∃ span word rest, us = ⟨.identifier, span, word⟩ :: rest ∧ word ∈ stageWords s := by
  cases s with
  | whereStage | projectStage | extendStage | distinctStage =>
    obtain ⟨xs, rfl, -⟩ := h
    exact ⟨_, _, _, rfl, by simp [stageWords]⟩
  | searchTextStage =>
    obtain ⟨-, rfl⟩ := h
    exact ⟨_, _, _, rfl, by simp [stageWords]⟩
  | searchParamStage | countStage =>
    obtain rfl : us = _ := h
    exact ⟨_, _, _, rfl, by simp [stageWords]⟩
  | summarizeStage =>
    obtain ⟨_, _, rfl, -⟩ := h
    exact ⟨_, _, _, rfl, by simp [stageWords]⟩
  | sortStage =>
    obtain ⟨word, _, _, _, hword, rfl, -⟩ := h
    exact ⟨_, _, _, rfl, by simpa [stageWords] using hword⟩
  | takeStage =>
    obtain ⟨word, hword, -, rfl⟩ := h
    exact ⟨_, _, _, rfl, by simpa [stageWords] using hword⟩
  | topStage =>
    obtain ⟨_, _, -, rfl, -⟩ := h
    exact ⟨_, _, _, rfl, by simp [stageWords]⟩

/-- That is not the word `logs`. -/
theorem spellsStage_first {s : Syntax.Stage} {us : List Token} (h : spellsStage src s us) :
    ∃ span word rest, us = ⟨.identifier, span, word⟩ :: rest ∧ word ≠ "logs" := by
  obtain ⟨span, word, rest, hus, hword⟩ := spellsStage_word h
  refine ⟨span, word, rest, hus, ?_⟩
  rintro rfl
  cases s <;> simp [stageWords] at hword

/-- No first error is found where there is none. -/
theorem find_error_eq_none {ts : List Token} (h : ∀ tok ∈ ts, tok.kind ≠ .error) :
    ts.find? (fun tok => decide (tok.kind = .error)) = none := by
  rw [List.find?_eq_none]
  intro tok htok
  simpa using h tok htok

end Kinds

/-- Parsing a Query inverts writing it: tokens parse as a tree exactly when they are how that tree is
written. -/
theorem query_eq_ok_iff {src : Source} {ts : List Token} {q : Syntax.Query} :
    Parser.query src ts = .ok q ↔ spellsQuery src q ts := by
  refine ⟨query_reads, fun h => ?_⟩
  obtain ⟨source, stages⟩ := q
  unfold Parser.query
  cases source with
  | some id =>
    obtain ⟨name, span, quoted⟩ := id
    obtain ⟨hquoted, kind, us, rfl, hnamed, hspelled⟩ := h
    cases hquoted
    have hkind : kind ≠ .error := by rcases hnamed with ⟨rfl, -⟩ | rfl <;> decide
    have hsource : Parser.isSource ⟨kind, span, name⟩ = true := by
      simpa [Parser.isSource] using hnamed
    rw [find_error_eq_none (List.forall_mem_cons.2 ⟨hkind, spellsPiped_ne_error hspelled⟩)]
    simp only [hsource, if_true]
    cases stages with
    | nil =>
      cases hspelled
      rfl
    | cons s rest =>
      obtain ⟨value, us, vs, rfl, hs, hrest⟩ := hspelled
      have hread := @stages_spelled src ((us ++ vs).length + 1) s rest us vs hs hrest
        (by simp only [List.length_append]; omega)
      simp only [if_true, hread]
      rfl
  | none =>
    cases stages with
    | nil =>
      cases h
      rfl
    | cons s rest =>
      obtain ⟨hpipe, us, vs, rfl, hs, hrest⟩ := h
      have herrors : ∀ tok ∈ us ++ vs, tok.kind ≠ .error := by
        refine List.forall_mem_append.2 ⟨fun tok htok => ?_, spellsPiped_ne_error hrest⟩
        have hkind := spellsStage_inStage hs tok htok
        intro herror
        simp [inStage, herror] at hkind
      rw [find_error_eq_none herrors]
      have hread := @stages_spelled src ((us ++ vs).length + 1) s rest us vs hs hrest
        (by simp only [List.length_append]; omega)
      rw [hpipe] at hread
      obtain ⟨span, word, us, rfl, hword⟩ := spellsStage_first hs
      have hsource : Parser.isSource ⟨.identifier, span, word⟩ = false := by
        simp [Parser.isSource, hword]
      simp only [List.cons_append] at hread ⊢
      simp only [hsource, Bool.false_eq_true, if_false, hread]
      rfl

end SolidTrace.LogQuery
