import SolidTrace.LogQuery.Coverage
import SolidTrace.LogQuery.ParseQuery
import SolidTrace.LogQuery.ParseSound
import SolidTrace.LogQuery.ParseTexts

/-!
# Mistakes point into the text

The place of every mistake that the parser finds is one of the tokens', a place from one token's to
another's, or the text's end.
-/

namespace SolidTrace.LogQuery

section Places

/-- A span of a text of so many bytes. -/
def InText (size : ℕ) (s : Span) : Prop := 0 ≤ s.start ∧ s.start ≤ s.stop ∧ s.stop ≤ size

/-- A span in the text is a valid one. -/
theorem InText.isValid {size : ℕ} {s : Span} (h : InText size s) : s.isValid = true := by
  simp [Span.isValid, h.1, h.2.1]

/-- The union of spans in the text is one. -/
theorem InText.union {size : ℕ} {a b : Span} (ha : InText size a) (hb : InText size b) :
    InText size (.union [a, b]) := by
  have hnull : Span.null.isValid = false := rfl
  have hunion : Span.union [a, b] = ⟨min a.start b.start, max a.stop b.stop⟩ := by
    simp [Span.union, ha.isValid, hb.isValid, hnull]
  obtain ⟨hstart, hle, hstop⟩ := ha
  obtain ⟨hstart', hle', hstop'⟩ := hb
  rw [hunion]
  simp only [InText]
  omega

/-- Tokens of a text of so many bytes. -/
def AllInText (size : ℕ) (ts : List Token) : Prop := ∀ tok ∈ ts, InText size tok.span

/-- The first of tokens in the text is in it. -/
theorem AllInText.head {size : ℕ} {tok : Token} {ts : List Token} (h : AllInText size (tok :: ts)) :
    InText size tok.span := h tok List.mem_cons_self

/-- The others of tokens in the text are in it. -/
theorem AllInText.tail {size : ℕ} {tok : Token} {ts : List Token} (h : AllInText size (tok :: ts)) :
    AllInText size ts := fun other hother => h other (List.mem_cons_of_mem tok hother)

/-- The parts of tokens in the text are in it. -/
theorem AllInText.append {size : ℕ} {ts us : List Token} (h : AllInText size (ts ++ us)) :
    AllInText size ts ∧ AllInText size us := List.forall_mem_append.1 h

/-- A mistake in a text of so many bytes, or fewer tokens left than some, which are the text's. -/
def Points {α : Type} (size k : ℕ) (r : Parsed α) : Prop :=
  match r with
  | .error e => InText size e.span
  | .ok (_, rest) => rest.length < k ∧ AllInText size rest

variable {α β : Type} {size k l : ℕ}

/-- A reader that succeeds leaves fewer tokens, all in the text. -/
theorem Points.ok {x : α} {rest : List Token} (h : rest.length < k) (hrest : AllInText size rest) :
    Points size k (.ok (x, rest)) := ⟨h, hrest⟩

/-- An error in the text points into it. -/
theorem Points.error {span : Span} {message : String} (h : InText size span) :
    Points size k (parseError (α := α) span message) := h

/-- A reader that leaves fewer tokens leaves fewer than more. -/
theorem Points.mono {r : Parsed α} (h : Points size k r) (hkl : k ≤ l) : Points size l r := by
  rcases r with e | ⟨x, rest⟩
  · exact h
  · exact ⟨Nat.lt_of_lt_of_le h.1 hkl, h.2⟩

/-- Parsing on points into the text where what was parsed leads to what does. -/
theorem Points.andThen_of {r : Parsed α} {next : α → List Token → Parsed β} (h : Points size l r)
    (hnext : ∀ x rest, r = .ok (x, rest) → rest.length < l → AllInText size rest →
      Points size k (next x rest)) : Points size k (andThen r next) := by
  rcases r with e | ⟨x, rest⟩
  · exact h
  · exact hnext x rest rfl h.1 h.2

/-- Reading one thing and then another points into the text. -/
theorem Points.andThen {r : Parsed α} {next : α → List Token → Parsed β} (h : Points size l r)
    (hnext : ∀ x rest, rest.length < l → AllInText size rest → Points size k (next x rest)) :
    Points size k (andThen r next) := h.andThen_of fun x rest _ => hnext x rest

end Places

section Expressions

variable {src : Source} {expr : ℕ → List Token → Parsed Syntax.Expr} {n : ℕ}

/-- The bytes of a source's text. -/
abbrev Source.size (src : Source) : ℕ := src.text.utf8ByteSize

/-- The place of the next token is in the text, at its end if there is none. -/
theorem within_nextSpan {ts : List Token} (h : AllInText src.size ts) : InText src.size (src.nextSpan ts) := by
  cases ts with
  | nil => exact ⟨Int.natCast_nonneg _, le_rfl, le_rfl⟩
  | cons tok ts => exact h.head

/-- A parser of expressions whose mistakes are in the text, for fewer tokens than some. -/
def PointsBelow (src : Source) (expr : ℕ → List Token → Parsed Syntax.Expr) (n : ℕ) : Prop :=
  ∀ m ts, ts.length < n → AllInText src.size ts → Points src.size ts.length (expr m ts)

/-- A step that points into the text does so however often it is repeated. -/
theorem repeated_points {step : Syntax.Expr → List Token → Option (Parsed Syntax.Expr)} {l : ℕ}
    (hnil : ∀ x, step x [] = none)
    (hstep : ∀ x ts r, ts.length < l → AllInText src.size ts → step x ts = some r →
      Points src.size ts.length r) {k : ℕ} {x : Syntax.Expr} {ts : List Token} (hts : ts.length < l)
    (hk : ts.length ≤ k) (hin : AllInText src.size ts) : Points src.size l (repeated step k x ts) := by
  induction k generalizing x ts with
  | zero =>
    obtain rfl : ts = [] := List.length_eq_zero_iff.1 (by omega)
    rw [repeated_none (hnil x)]
    exact .ok hts hin
  | succ k ih =>
    cases hs : step x ts with
    | none =>
      rw [repeated_none hs]
      exact .ok hts hin
    | some r =>
      unfold repeated
      rw [hs]
      refine .andThen (hstep x ts r hts hin hs) fun x' rest hrest hin' => ?_
      exact ih (by omega) (by omega) hin'

/-- The elements of a list point into the text. -/
theorem elements_points (hexpr : PointsBelow src expr n) {k : ℕ} {ts : List Token} (hts : ts.length < n)
    (hk : ts.length < k) (hin : AllInText src.size ts) :
    Points src.size ts.length (elements src expr k ts) := by
  induction k generalizing ts with
  | zero => omega
  | succ k ih =>
    unfold elements
    refine .andThen (hexpr 0 ts hts hin) fun x rest hrest hin => ?_
    split
    next span value ts₁ =>
      rw [List.length_cons] at hrest
      exact .andThen (ih (by omega) (by omega) hin.tail) fun _ _ h hin => .ok (by omega) hin
    next span value ts₁ =>
      rw [List.length_cons] at hrest
      exact .ok (by omega) hin.tail
    · exact .error (within_nextSpan hin)

/-- A dotted name points into the text. -/
theorem dottedName_points {name : String} {span : Span} {ts : List Token} (hspan : InText src.size span)
    (hin : AllInText src.size ts) : Points src.size (ts.length + 1) (dottedName src name span ts) := by
  fun_induction dottedName src name span ts with
  | case1 => exact .ok (by simp) hin
  | case2 name span dot hdot => exact .error (hspan.union hin.head)
  | case3 name span dot hdot part ts hpart ih =>
    exact (ih (hspan.union hin.tail.head) hin.tail.tail).mono (by simp)
  | case4 name span dot hdot => exact .error (hspan.union hin.head)
  | case5 => exact .ok (by simp) hin

/-- A word points into the text. -/
theorem wordExpr_points {first : Token} {ts : List Token} (hin : AllInText src.size (first :: ts)) :
    Points src.size (ts.length + 1) (wordExpr first ts) := by
  unfold wordExpr
  split
  · exact .ok (by simp) hin.tail
  · split
    · exact .error hin.head
    · exact .ok (by simp) hin.tail

/-- A name or a call points into the text. -/
theorem identExpr_points (hexpr : PointsBelow src expr n) {first : Token} {ts : List Token}
    (hts : ts.length < n) (hin : AllInText src.size (first :: ts)) :
    Points src.size (ts.length + 1) (identExpr src expr n first ts) := by
  unfold identExpr
  split
  · exact wordExpr_points hin
  next next ts =>
    rw [List.length_cons] at hts
    split
    · exact dottedName_points hin.head hin.tail
    · split
      · unfold callExpr
        split
        · exact .ok (by simp only [List.length_cons]; omega) hin.tail.tail.tail
        · refine .andThen (elements_points hexpr (by omega) (by omega) hin.tail.tail) fun _ _ h hin =>
            .ok ?_ hin
          simp only [List.length_cons]
          omega
      · exact wordExpr_points hin

/-- An operand points into the text. -/
theorem operand_points (hexpr : PointsBelow src expr n) {ts : List Token} (hts : ts.length ≤ n)
    (hin : AllInText src.size ts) : Points src.size ts.length (operand src expr n ts) := by
  unfold operand
  split
  · exact .error (within_nextSpan hin)
  next tok ts =>
    rw [List.length_cons] at hts ⊢
    split
    case h_7 => exact identExpr_points hexpr (by omega) hin
    case h_8 =>
      refine .andThen (hexpr 0 ts (by omega) hin.tail) fun x rest hrest hin => ?_
      split
      · rw [List.length_cons] at hrest
        exact .ok (by omega) hin.tail
      · exact .error (within_nextSpan hin)
    case h_9 => exact .error hin.head
    all_goals exact .ok (by simp) hin.tail

/-- An accessor points into the text. -/
theorem accessor_points (hexpr : PointsBelow src expr n) {x : Syntax.Expr} {ts : List Token}
    {r : Parsed Syntax.Expr} (hts : ts.length ≤ n) (hin : AllInText src.size ts)
    (h : accessor src expr x ts = some r) : Points src.size ts.length r := by
  unfold accessor at h
  split at h
  · simp at h
  next tok ts =>
    rw [List.length_cons] at hts ⊢
    split at h
    · cases h
      unfold memberExpr
      split
      · exact .error hin.head
      · split
        · exact .ok (by simp only [List.length_cons]; omega) hin.tail.tail
        · exact .error hin.head
    · split at h
      · cases h
        exact .ok (by simp) hin.tail
      · split at h
        · cases h
          unfold indexExpr
          split
          · exact .error hin.head
          · exact .error hin.head
          · refine .andThen (hexpr 0 ts (by omega) hin.tail) fun x rest hrest hin => ?_
            split
            · rw [List.length_cons] at hrest
              exact .ok (by omega) hin.tail
            · exact .error (within_nextSpan hin)
        · simp at h

/-- A primary expression points into the text. -/
theorem primaryExpr_points (hexpr : PointsBelow src expr n) {ts : List Token} (hts : ts.length ≤ n)
    (hin : AllInText src.size ts) : Points src.size ts.length (primaryExpr src expr n ts) := by
  unfold primaryExpr
  refine .andThen (operand_points hexpr hts hin) fun x rest hrest hin => ?_
  exact repeated_points (fun _ => rfl)
    (fun _ _ _ hlt hin h => accessor_points hexpr (by omega) hin h) hrest (by omega) hin

/-- A signed expression points into the text. -/
theorem unaryExpr_points (hexpr : PointsBelow src expr n) {ts : List Token} (hts : ts.length ≤ n)
    (hin : AllInText src.size ts) : Points src.size ts.length (unaryExpr src expr n ts) := by
  unfold unaryExpr
  split
  · exact primaryExpr_points hexpr hts hin
  next tok ts =>
    split
    · rw [List.length_cons] at hts ⊢
      exact .andThen (primaryExpr_points hexpr (by omega) hin.tail) fun _ _ h hin => .ok (by omega) hin
    · exact primaryExpr_points hexpr hts hin

/-- An operator is a token, or two. -/
theorem within_operator {op : Operator} {span : Span} {os : List Token} (h : SpellsOperator op span os)
    (hin : AllInText src.size os) : 0 < os.length ∧ InText src.size span := by
  cases h with
  | symbol => exact ⟨Nat.one_pos, hin.head⟩
  | word => exact ⟨Nat.one_pos, hin.head⟩
  | negated => exact ⟨Nat.two_pos, hin.head.union hin.tail.head⟩
  | matchesRegex => exact ⟨Nat.two_pos, hin.head.union hin.tail.head⟩

/-- An operation points into the text. -/
theorem operation_points (hexpr : PointsBelow src expr n) {m : ℕ} {x : Syntax.Expr} {ts : List Token}
    {r : Parsed Syntax.Expr} (hts : ts.length ≤ n) (hin : AllInText src.size ts)
    (h : operation src expr n m x ts = some r) : Points src.size ts.length r := by
  unfold operation at h
  split at h
  · simp at h
  next op span after hop =>
    obtain ⟨os, rfl, hos⟩ := binaryOperator_spells hop
    obtain ⟨hlength, hspan⟩ := within_operator hos hin.append.1
    have hafter := hin.append.2
    rw [List.length_append] at hts ⊢
    split at h
    · simp at h
    · split at h
      · cases h
        exact .error hspan
      · split at h
        · cases h
          unfold list
          split
          · rw [List.length_cons] at hts ⊢
            exact .andThen (elements_points hexpr (by omega) (by omega) hafter.tail) fun _ _ h hin =>
              .ok (by omega) hin
          · exact .error (within_nextSpan hafter)
        · cases h
          exact .andThen (hexpr _ after (by omega) hafter) fun _ _ h hin => .ok (by omega) hin

/-- The number of tokens is depth enough. -/
theorem exprOf_points (src : Source) (n : ℕ) : PointsBelow src (exprOf src n) n := by
  induction n with
  | zero =>
    intro m ts hts
    omega
  | succ n ih =>
    intro m ts hts hin
    unfold exprOf
    refine .andThen (unaryExpr_points ih (by omega) hin) fun x rest hrest hin => ?_
    exact repeated_points (fun _ => rfl)
      (fun _ _ _ hlt hin h => operation_points ih (by omega) hin h) hrest (by omega) hin

/-- An expression points into the text. -/
theorem parseExpr_points {m : ℕ} {ts : List Token} (hin : AllInText src.size ts) :
    Points src.size ts.length (parseExpr src m ts) :=
  exprOf_points src (ts.length + 1) m ts (Nat.lt_succ_self _) hin

end Expressions

section Stages

variable {src : Source}

/-- The name of a column points into the text. -/
theorem columnName_points {naming : Bool} {ts : List Token} (hin : AllInText src.size ts) :
    Points src.size (ts.length + 1) (Parser.columnName src naming ts) := by
  unfold Parser.columnName
  split
  · split
    · split
      · exact .ok (by simp only [List.length_cons]; omega) hin.tail.tail
      · exact .error hin.head
    · exact .ok (Nat.lt_succ_self _) hin
  · exact .ok (Nat.lt_succ_self _) hin

/-- Named columns point into the text. -/
theorem namedExprs_points {naming : Bool} {n : ℕ} {after : Token} {ts : List Token}
    (hafter : InText src.size after.span) (hts : ts.length < n) (hin : AllInText src.size ts) :
    Points src.size ts.length (Parser.namedExprs src naming n after ts) := by
  induction n generalizing after ts with
  | zero => omega
  | succ n ih =>
    unfold Parser.namedExprs
    split
    · exact .error hafter
    · refine .andThen (columnName_points hin) fun name named hnamed hin => ?_
      refine .andThen (parseExpr_points hin) fun x rest hrest hin => ?_
      split
      · exact .ok (by omega) hin
      next tok rest =>
        rw [List.length_cons] at hrest
        split
        · exact .andThen (ih hin.head (by omega) hin.tail) fun _ _ h hin => .ok (by omega) hin
        · exact .ok (by rw [List.length_cons]; omega) hin

/-- A direction leaves no more tokens than there were, all in the text. -/
theorem direction_leaves {ts : List Token} (hin : AllInText src.size ts) :
    (Parser.direction ts).2.length ≤ ts.length ∧ AllInText src.size (Parser.direction ts).2 := by
  unfold Parser.direction
  split
  · exact ⟨le_rfl, hin⟩
  · split
    · exact ⟨Nat.le_succ _, hin.tail⟩
    · exact ⟨le_rfl, hin⟩

/-- A place of nulls points into the text. -/
theorem nullsOrder_points {ts : List Token} (hin : AllInText src.size ts) :
    Points src.size (ts.length + 1) (Parser.nullsOrder ts) := by
  unfold Parser.nullsOrder
  split
  · split
    · split
      · exact .ok (by simp only [List.length_cons]; omega) hin.tail.tail
      · split
        · exact .ok (by simp only [List.length_cons]; omega) hin.tail.tail
        · exact .error hin.head
    · exact .ok (Nat.lt_succ_self _) hin
  · split
    · exact .error hin.head
    · exact .ok (Nat.lt_succ_self _) hin
  · exact .ok Nat.one_pos hin

/-- A sort key points into the text. -/
theorem sortKey_points {after : Token} {ts : List Token} (hafter : InText src.size after.span)
    (hin : AllInText src.size ts) : Points src.size ts.length (Parser.sortKey src after ts) := by
  unfold Parser.sortKey
  split
  · exact .error hafter
  · refine .andThen (parseExpr_points hin) fun x rest hrest hin => ?_
    have hleaves := direction_leaves hin
    rcases hdirection : Parser.direction rest with ⟨⟨asc, ascSpan⟩, left⟩
    rw [hdirection] at hleaves
    obtain ⟨hle, hin⟩ := hleaves
    dsimp only at hle ⊢
    exact .andThen (nullsOrder_points hin) fun _ _ h hin => .ok (by omega) hin

/-- Sort keys point into the text. -/
theorem sortKeys_points {by' : Token} {n : ℕ} {ts : List Token} (hby : InText src.size by'.span)
    (hts : ts.length < n) (hin : AllInText src.size ts) :
    Points src.size ts.length (Parser.sortKeys src by' n ts) := by
  induction n generalizing ts with
  | zero => omega
  | succ n ih =>
    unfold Parser.sortKeys
    refine .andThen (sortKey_points hby hin) fun key rest hrest hin => ?_
    split
    · exact .ok hrest hin
    next tok rest =>
      split
      · rw [List.length_cons] at hrest
        exact .andThen (ih (by omega) hin.tail) fun _ _ h hin => .ok (by omega) hin
      · exact .ok hrest hin

/-- A count points into the text. -/
theorem count_points {keyword : Token} {ts : List Token} (hkeyword : InText src.size keyword.span)
    (hin : AllInText src.size ts) :
    Points src.size ts.length (Parser.count keyword ts) ∧
      ∀ lit rest, Parser.count keyword ts = .ok (lit, rest) → InText src.size lit.span := by
  unfold Parser.count
  split
  · exact ⟨.error hkeyword, nofun⟩
  next tok ts =>
    split
    · exact ⟨.error hin.head, nofun⟩
    · split
      · refine ⟨.ok (Nat.lt_succ_self _) hin.tail, fun lit rest h => ?_⟩
        cases h
        exact hin.head
      · exact ⟨.error hkeyword, nofun⟩

/-- The columns after by point into the text. -/
theorem columnsBy_points {ts : List Token} (hin : AllInText src.size ts) :
    Points src.size (ts.length + 1) (Parser.columnsBy src ts) := by
  unfold Parser.columnsBy
  split
  · exact .ok Nat.one_pos hin
  · split
    · refine (namedExprs_points hin.head (Nat.lt_succ_self _) hin.tail).mono ?_
      rw [List.length_cons]
      omega
    · exact .ok (Nat.lt_succ_self _) hin

/-- The word by points into the text. -/
theorem wordBy_points {span : Span} {message : String} {ts : List Token} (hspan : InText src.size span)
    (hin : AllInText src.size ts) :
    Points src.size ts.length (Parser.wordBy (parseError span message) ts) ∧
      ∀ by' rest, Parser.wordBy (parseError span message) ts = .ok (by', rest) → InText src.size by'.span := by
  unfold Parser.wordBy
  split
  · exact ⟨.error hspan, nofun⟩
  · split
    · refine ⟨.ok (Nat.lt_succ_self _) hin.tail, fun by' rest h => ?_⟩
      cases h
      exact hin.head
    · exact ⟨.error hspan, nofun⟩

/-- A search stage points into the text. -/
theorem searchStage_points {pipe : Span} {keyword : Token} {ts : List Token}
    (hkeyword : InText src.size keyword.span) (hin : AllInText src.size ts) :
    Points src.size (ts.length + 1) (Parser.searchStage pipe keyword ts) := by
  unfold Parser.searchStage
  split
  · exact .error hkeyword
  · split
    · exact .ok (by simp only [List.length_cons]; omega) hin.tail
    · split
      · exact .ok (by simp only [List.length_cons]; omega) hin.tail
      · exact .error hin.head

/-- A stage of columns alone. -/
theorem columnStage_points {naming : Bool} {keyword : Token} {ts : List Token}
    {f : List Syntax.NamedExpr → Syntax.Stage} (hkeyword : InText src.size keyword.span)
    (hin : AllInText src.size ts) :
    Points src.size (ts.length + 1)
      (andThen (Parser.namedExprs src naming (ts.length + 1) keyword ts) fun columns ts => .ok (f columns, ts)) :=
  .andThen (namedExprs_points hkeyword (Nat.lt_succ_self _) hin) fun _ _ h hin => .ok (by omega) hin

/-- A summarize stage points into the text. -/
theorem summarize_points {pipe : Span} {keyword : Token} {ts : List Token}
    (hkeyword : InText src.size keyword.span) (hin : AllInText src.size ts) :
    Points src.size (ts.length + 1)
      (andThen (if Parser.atWord "by" ts then .ok ([], ts)
        else Parser.namedExprs src true (ts.length + 1) keyword ts) fun aggregates ts =>
      andThen (Parser.columnsBy src ts) fun columnsBy ts =>
      .ok (Syntax.Stage.summarizeStage pipe keyword.span aggregates columnsBy, ts)) := by
  have haggregates : Points src.size (ts.length + 1) (if Parser.atWord "by" ts then .ok ([], ts)
      else Parser.namedExprs src true (ts.length + 1) keyword ts) := by
    split
    · exact .ok (Nat.lt_succ_self _) hin
    · exact (namedExprs_points hkeyword (Nat.lt_succ_self _) hin).mono (Nat.le_succ _)
  refine .andThen haggregates fun _ rest h hin => ?_
  exact .andThen (columnsBy_points hin) fun _ _ h hin => .ok (by omega) hin

/-- A sort stage points into the text. -/
theorem sort_points {pipe : Span} {keyword : Token} {message : String} {ts : List Token}
    (hkeyword : InText src.size keyword.span) (hin : AllInText src.size ts) :
    Points src.size (ts.length + 1)
      (andThen (Parser.wordBy (parseError keyword.span message) ts) fun by' ts =>
      andThen (Parser.sortKeys src by' (ts.length + 1) ts) fun keys ts =>
      .ok (Syntax.Stage.sortStage pipe (.union [keyword.span, by'.span]) keys, ts)) := by
  obtain ⟨hword, hby⟩ := @wordBy_points src keyword.span message ts hkeyword hin
  refine hword.andThen_of fun by' rest heq h hin => ?_
  exact .andThen (sortKeys_points (hby by' rest heq) (Nat.lt_succ_self _) hin) fun _ _ h hin =>
    .ok (by omega) hin

/-- A take stage points into the text. -/
theorem take_points {pipe : Span} {keyword : Token} {ts : List Token}
    (hkeyword : InText src.size keyword.span) (hin : AllInText src.size ts) :
    Points src.size (ts.length + 1) (andThen (Parser.count keyword ts) fun count ts =>
      .ok (Syntax.Stage.takeStage pipe keyword.span count, ts)) :=
  .andThen (count_points hkeyword hin).1 fun _ _ h hin => .ok (by omega) hin

/-- A top stage points into the text. -/
theorem top_points {pipe : Span} {keyword : Token} {ts : List Token}
    (hkeyword : InText src.size keyword.span) (hin : AllInText src.size ts) :
    Points src.size (ts.length + 1) (andThen (Parser.count keyword ts) fun count ts =>
      andThen (Parser.wordBy (parseError (.union [keyword.span, count.span])
        "top needs by, as in top 10 by duration") ts) fun by' ts =>
      andThen (Parser.sortKey src by' ts) fun key ts =>
      .ok (Syntax.Stage.topStage pipe keyword.span count key, ts)) := by
  obtain ⟨hcount, hlit⟩ := count_points hkeyword hin
  refine hcount.andThen_of fun count rest heq h hin => ?_
  obtain ⟨hword, hby⟩ := wordBy_points (hkeyword.union (hlit count rest heq)) hin
  refine hword.andThen_of fun by' rest' heq' h' hin => ?_
  exact .andThen (sortKey_points (hby by' rest' heq') hin) fun _ _ h hin => .ok (by omega) hin

/-- The stage that a keyword starts points into the text. -/
theorem stageOf_points {pipe : Span} {keyword : Token} {ts : List Token}
    (hkeyword : InText src.size keyword.span) (hin : AllInText src.size ts) :
    Points src.size (ts.length + 1) (Parser.stageOf src pipe keyword ts) := by
  unfold Parser.stageOf
  split
  · split
    · exact .error hkeyword
    · exact .andThen (parseExpr_points hin) fun _ _ h hin => .ok (by omega) hin
  · exact searchStage_points hkeyword hin
  · exact columnStage_points hkeyword hin
  · exact columnStage_points hkeyword hin
  · exact summarize_points hkeyword hin
  · exact sort_points hkeyword hin
  · exact sort_points hkeyword hin
  · exact take_points hkeyword hin
  · exact take_points hkeyword hin
  · exact top_points hkeyword hin
  · exact .ok (Nat.lt_succ_self _) hin
  · exact columnStage_points hkeyword hin
  · exact .error hkeyword

/-- A stage points into the text. -/
theorem stage_points {pipe : Span} {ts : List Token} (hin : AllInText src.size ts) :
    Points src.size ts.length (Parser.stage src pipe ts) := by
  unfold Parser.stage
  split
  · exact .error (within_nextSpan hin)
  · split
    · exact stageOf_points hin.head hin.tail
    · exact .error (within_nextSpan hin)

/-- The stages point into the text. -/
theorem stages_points {n : ℕ} {pipe : Span} {ts : List Token} (hts : ts.length < n)
    (hin : AllInText src.size ts) : Points src.size ts.length (Parser.stages src n pipe ts) := by
  induction n generalizing pipe ts with
  | zero => omega
  | succ n ih =>
    unfold Parser.stages
    refine .andThen (stage_points hin) fun s rest hrest hin => ?_
    split
    · exact .ok hrest hin
    next tok rest =>
      rw [List.length_cons] at hrest
      split
      · exact .andThen (ih (by omega) hin.tail) fun _ _ h hin => .ok (by omega) hin
      · exact .error hin.head

/-- An error stays where it points when the result is mapped. -/
theorem Points.within_of_map {α β : Type} {size k : ℕ} {r : Parsed α} {f : α × List Token → β} {e : Error}
    (h : Points size k r) (he : r.map f = .error e) : InText size e.span := by
  cases r with
  | ok p => cases he
  | error e' =>
    cases he
    exact h

/-- Every mistake of a Query is at a place in the text. -/
theorem query_points {ts : List Token} {e : Error} (hin : AllInText src.size ts)
    (h : Parser.query src ts = .error e) : InText src.size e.span := by
  unfold Parser.query at h
  split at h
  next tok hfind =>
    cases h
    exact hin tok (List.mem_of_find?_eq_some hfind)
  · split at h
    · cases h
    · split at h
      · split at h
        · cases h
        · split at h
          · exact (stages_points (Nat.lt_succ_self _) hin.tail.tail).within_of_map h
          · cases h
            exact hin.tail.head
      · exact (stages_points (Nat.lt_succ_self _) hin).within_of_map h

end Stages

/-- The tokens of any bytes cover them, one after another, and each mistake in them is at a place in
them. -/
theorem scan_covers (abc : Alphabet) (bytes : List UInt8) :
    (Covers 0 bytes (scan abc (decode bytes)) ∧
      (∀ tok ∈ scan abc (decode bytes), 0 ≤ tok.span.start ∧ tok.span.start < tok.span.stop ∧
        tok.span.stop ≤ bytes.length) ∧
      (scan abc (decode bytes)).Pairwise fun tok next => tok.span.stop ≤ next.span.start) ∧
    ∀ e, parseBytes abc bytes = .error e → InText bytes.length e.span := by
  have hcovers : Covers 0 bytes (scan abc (decode bytes)) := by
    have hscan := @scanFrom_covers abc (decode bytes).size 0 (decode bytes) le_rfl (proper_decode bytes)
    rwa [bytes_decode] at hscan
  have hwithin : ∀ tok ∈ scan abc (decode bytes), 0 ≤ tok.span.start ∧ tok.span.start < tok.span.stop ∧
      tok.span.stop ≤ bytes.length := by
    intro tok htok
    simpa using hcovers.within tok htok
  refine ⟨⟨hcovers, hwithin, hcovers.ordered⟩, fun e he => ?_⟩
  have hsize : (decode bytes).shown.utf8ByteSize = bytes.length := by
    rw [Text.size_shown, ← Text.length_bytes, bytes_decode]
  rw [← hsize]
  refine @query_points ⟨(decode bytes).shown, abc.quote⟩ _ e (fun tok htok => ?_) he
  obtain ⟨hstart, hlt, hstop⟩ := hwithin tok htok
  refine ⟨hstart, hlt.le, ?_⟩
  rwa [Source.size, hsize]

/-- A quote and a byte that is no part of a character. -/
theorem scan_covers_unterminated : InText 2 ⟨0, 2⟩ :=
  (scan_covers Sample.alphabet [34, 255]).2 ⟨⟨0, 2⟩, "unterminated string"⟩ rfl

end SolidTrace.LogQuery
