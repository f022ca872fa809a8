import SolidTrace.LogQuery.ParseInverse
import SolidTrace.LogQuery.ParseQuery

/-!
# How Queries are written

The tokens a Query's tree is written with: the grammar of stages, apart from the parser that reads
them. Parsing a Query gives a tree exactly when the tokens are how that tree is written.
-/

namespace SolidTrace.LogQuery

/-- A stage's pipe. -/
def Syntax.Stage.pipe : Syntax.Stage → Span
  | .whereStage pipe _ _ => pipe
  | .searchTextStage pipe _ _ => pipe
  | .searchParamStage pipe _ _ => pipe
  | .projectStage pipe _ _ => pipe
  | .extendStage pipe _ _ => pipe
  | .summarizeStage pipe _ _ _ => pipe
  | .sortStage pipe _ _ => pipe
  | .takeStage pipe _ _ => pipe
  | .topStage pipe _ _ _ => pipe
  | .countStage pipe _ => pipe
  | .distinctStage pipe _ _ => pipe

section Spelling

variable (src : Source)

/-- How an expression that no operator is around is written. -/
def spellsExpr (x : Syntax.Expr) (ts : List Token) : Prop := wellFormed x 0 ∧ spells src x ts

/-- One or more, with a token of a kind between each two. -/
def separated {α : Type} (kind : TokenKind) (spell : α → List Token → Prop) :
    List α → List Token → Prop
  | [], _ => False
  | [a], ts => spell a ts
  | a :: b :: rest, ts => ∃ span value us vs, ts = us ++ ⟨kind, span, value⟩ :: vs ∧ spell a us ∧
      separated kind spell (b :: rest) vs

/-- How a column is written. -/
def spellsColumn (naming : Bool) (e : Syntax.NamedExpr) (ts : List Token) : Prop :=
  match e.name with
  | none => spellsExpr src e.x ts
  | some id => naming = true ∧ ∃ span value us,
      ts = ⟨if id.quoted then .quotedIdentifier else .identifier, id.span, id.name⟩ ::
        ⟨.assign, span, value⟩ :: us ∧ spellsExpr src e.x us

def spellsColumns (naming : Bool) : List Syntax.NamedExpr → List Token → Prop :=
  separated .comma (spellsColumn src naming)

/-- How a sort key's direction is written. -/
inductive SpellsDirection : Bool → Span → List Token → Prop
  | none : SpellsDirection false .null []
  | asc (span : Span) : SpellsDirection true span [⟨.identifier, span, "asc"⟩]
  | desc (span : Span) : SpellsDirection false span [⟨.identifier, span, "desc"⟩]

/-- How it is written where a sort key puts what has no value, after its direction. -/
inductive SpellsNulls (span : Span) : Option Syntax.Nulls → Span → List Token → Prop
  | none : SpellsNulls span none span []
  | first (nulls which : Span) : SpellsNulls span (some .first) which
      [⟨.identifier, nulls, "nulls"⟩, ⟨.identifier, which, "first"⟩]
  | last (nulls which : Span) : SpellsNulls span (some .last) which
      [⟨.identifier, nulls, "nulls"⟩, ⟨.identifier, which, "last"⟩]

def spellsKey (k : Syntax.SortKey) (ts : List Token) : Prop :=
  ∃ us ds ns span, ts = us ++ (ds ++ ns) ∧ spellsExpr src k.x us ∧ SpellsDirection k.asc span ds ∧
    SpellsNulls span k.nulls k.endSpan ns

/-- How a summarize's functions are written. They do not start with the word `by`. -/
def spellsAggregates (aggregates : List Syntax.NamedExpr) (ts : List Token) : Prop :=
  aggregates = [] ∧ ts = [] ∨ spellsColumns src true aggregates ts ∧ Parser.atWord "by" ts = false

/-- How the columns a summarize groups by are written. -/
def spellsBy (columnsBy : List Syntax.NamedExpr) (ts : List Token) : Prop :=
  columnsBy = [] ∧ ts = [] ∨
    ∃ span us, ts = ⟨.identifier, span, "by"⟩ :: us ∧ spellsColumns src true columnsBy us

/-- How a stage is written, from its keyword. -/
def spellsStage : Syntax.Stage → List Token → Prop
  | .whereStage _ keyword predicate, ts =>
    ∃ us, ts = ⟨.identifier, keyword, "where"⟩ :: us ∧ spellsExpr src predicate us
  | .searchTextStage _ keyword term, ts => term.kind = .string ∧
      ts = [⟨.identifier, keyword, "search"⟩, ⟨.string, term.span, term.value⟩]
  | .searchParamStage _ keyword term, ts =>
    ts = [⟨.identifier, keyword, "search"⟩, ⟨.param, term.span, term.name⟩]
  | .projectStage _ keyword columns, ts =>
    ∃ us, ts = ⟨.identifier, keyword, "project"⟩ :: us ∧ spellsColumns src true columns us
  | .extendStage _ keyword columns, ts =>
    ∃ us, ts = ⟨.identifier, keyword, "extend"⟩ :: us ∧ spellsColumns src true columns us
  | .summarizeStage _ keyword aggregates columnsBy, ts => ∃ us vs,
      ts = ⟨.identifier, keyword, "summarize"⟩ :: (us ++ vs) ∧ us ++ vs ≠ [] ∧
      spellsAggregates src aggregates us ∧ spellsBy src columnsBy vs
  | .sortStage _ keyword keys, ts => ∃ word kspan bspan us, (word = "sort" ∨ word = "order") ∧
      ts = ⟨.identifier, kspan, word⟩ :: ⟨.identifier, bspan, "by"⟩ :: us ∧
      keyword = .union [kspan, bspan] ∧ separated .comma (spellsKey src) keys us
  | .takeStage _ keyword n, ts => ∃ word, (word = "take" ∨ word = "limit") ∧ n.kind = .number ∧
      ts = [⟨.identifier, keyword, word⟩, ⟨.number, n.span, n.value⟩]
  | .topStage _ keyword n key, ts => ∃ span us, n.kind = .number ∧
      ts = ⟨.identifier, keyword, "top"⟩ :: ⟨.number, n.span, n.value⟩ ::
        ⟨.identifier, span, "by"⟩ :: us ∧ spellsKey src key us
  | .countStage _ keyword, ts => ts = [⟨.identifier, keyword, "count"⟩]
  | .distinctStage _ keyword columns, ts =>
    ∃ us, ts = ⟨.identifier, keyword, "distinct"⟩ :: us ∧ spellsColumns src false columns us

end Spelling

section Queries

variable (src : Source)

/-- How the stages after the first are written, or all of them after a source: each with its pipe. -/
def spellsPiped : List Syntax.Stage → List Token → Prop
  | [], ts => ts = []
  | s :: rest, ts => ∃ value us vs, ts = ⟨.pipe, s.pipe, value⟩ :: (us ++ vs) ∧
      spellsStage src s us ∧ spellsPiped rest vs

/-- How a Query is written. -/
def spellsQuery (q : Syntax.Query) (ts : List Token) : Prop :=
  match q.source, q.stages with
  | some id, stages => id.quoted = false ∧ ∃ kind us, ts = ⟨kind, id.span, id.name⟩ :: us ∧
      (kind = .identifier ∧ id.name = "logs" ∨ kind = .quotedIdentifier) ∧ spellsPiped src stages us
  | none, [] => ts = []
  | none, s :: rest => s.pipe = .null ∧ ∃ us vs, ts = us ++ vs ∧ spellsStage src s us ∧
      spellsPiped src rest vs

end Queries

end SolidTrace.LogQuery
