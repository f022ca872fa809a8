import SolidTrace.LogQuery.Extents
import SolidTrace.LogQuery.Moved

/-!
# A text's tree inside another text

Tokens that stand in another text too, so many bytes on, are how the same tree is written there, each of
its places as many bytes on.
-/

namespace SolidTrace.LogQuery

section Tokens

/-- Tokens of a text whose own texts stand in another text too, so many bytes on. -/
def CopiedTo (src src' : Source) (d : ℤ) (ts : List Token) : Prop :=
  ∃ lo hi, 0 ≤ lo ∧ 0 ≤ lo + d ∧ Placed lo ts hi ∧ ∀ tok ∈ ts, src'.at (tok.span.shift d) = src.at tok.span

variable {src src' : Source} {d : ℤ}

/-- The parts of tokens copied from another place are copied too. -/
theorem CopiedTo.append {us vs : List Token} (h : CopiedTo src src' d (us ++ vs)) :
    CopiedTo src src' d us ∧ CopiedTo src src' d vs := by
  obtain ⟨lo, hi, hlo, hlo', hplaced, htexts⟩ := h
  obtain ⟨mid, hus, hvs⟩ := placed_append.1 hplaced
  rw [List.forall_mem_append] at htexts
  have hle := hus.le
  exact ⟨⟨lo, mid, hlo, hlo', hus, htexts.1⟩, ⟨mid, hi, by omega, by omega, hvs, htexts.2⟩⟩

/-- The others of tokens copied from another place are copied too. -/
theorem CopiedTo.tail {tok : Token} {ts : List Token} (h : CopiedTo src src' d (tok :: ts)) :
    CopiedTo src src' d ts := (@CopiedTo.append src src' d [tok] ts h).2

/-- A token that stands in both texts. -/
theorem CopiedTo.head {tok : Token} {ts : List Token} (h : CopiedTo src src' d (tok :: ts)) :
    0 ≤ tok.span.start ∧ tok.span.start < tok.span.stop ∧ 0 ≤ tok.span.start + d ∧
      src'.at (tok.span.shift d) = src.at tok.span := by
  obtain ⟨lo, hi, hlo, hlo', ⟨hstart, hspan, -⟩, htexts⟩ := h
  exact ⟨by omega, hspan, by omega, htexts tok List.mem_cons_self⟩

/-- Tokens that are shifted are placed within shifted bounds. -/
theorem Placed.shift {lo hi : ℤ} {ts : List Token} (h : Placed lo ts hi) (hlo : 0 ≤ lo) (d : ℤ) :
    Placed (lo + d) (ts.map (Token.shift d)) (hi + d) := by
  induction ts generalizing lo with
  | nil =>
    have hle : lo ≤ hi := h
    exact (by omega : lo + d ≤ hi + d)
  | cons tok ts ih =>
    obtain ⟨hstart, hspan, hrest⟩ := h
    have hshift := @Span.shift_nonneg d tok.span (by omega)
    rw [List.map_cons, Placed, Token.shift_span, hshift]
    refine ⟨by simp only; omega, by simp only; omega, ?_⟩
    exact ih hrest (by omega)

/-- Tokens that are shifted extend over the shifted extent. -/
theorem extent_shift {lo hi : ℤ} {ts : List Token} (h : Placed lo ts hi) (hlo : 0 ≤ lo) (hts : ts ≠ []) :
    extent (ts.map (Token.shift d)) = (extent ts).shift d := by
  obtain ⟨tok, ts, rfl⟩ := List.exists_cons_of_ne_nil hts
  have hwithin := h.extent hts
  rw [Span.shift_nonneg (by omega)]
  rcases List.eq_nil_or_concat' ts with rfl | ⟨us, last, rfl⟩
  · rw [List.map_singleton, extent_singleton, Token.shift_span, Span.shift_nonneg (by exact le_trans hlo h.1)]
    rfl
  · have hlast := @Placed.mem _ _ _ h last (by simp)
    rw [List.map_cons, List.map_append, List.map_singleton]
    simp only [extent, List.getLastD_concat, Token.shift_span]
    rw [Span.shift_nonneg (by exact le_trans hlo h.1), Span.shift_nonneg (by omega)]

end Tokens

section Expressions

variable {src src' : Source} {d : ℤ}

/-- The union of two shifted spans is shifted. -/
theorem union_shift {a b : Span} (ha : 0 ≤ a.start) (ha' : a.start ≤ a.stop) (had : 0 ≤ a.start + d)
    (hab : a.stop ≤ b.start) (hb : b.start ≤ b.stop) :
    (Span.union [a, b]).shift d = Span.union [a.shift d, b.shift d] := by
  rw [Span.shift_nonneg ha, Span.shift_nonneg (ha.trans (ha'.trans hab))]
  have hshifted : ∀ s : Span, 0 ≤ s.start + d → s.start ≤ s.stop →
      (⟨s.start + d, s.stop + d⟩ : Span).isValid = true := fun s hs hs' =>
    Span.isValid_iff.2 ⟨hs, by simp only; omega⟩
  rw [union_two (Span.isValid_iff.2 ⟨ha, ha'⟩) (Span.isValid_iff.2 ⟨by omega, hb⟩) (by omega) (by omega),
    union_two (hshifted a had ha') (hshifted b (by omega) hb) (by simp only; omega) (by simp only; omega)]
  exact @Span.shift_nonneg d ⟨a.start, b.stop⟩ ha

/-- An operator is spelled by its tokens wherever they stand. -/
theorem SpellsOperator.shift {op : Operator} {span : Span} {os : List Token} (h : SpellsOperator op span os)
    (hos : CopiedTo src src' d os) : SpellsOperator op (span.shift d) (os.map (Token.shift d)) := by
  cases h with
  | symbol h span value => exact .symbol h _ value
  | word h span => exact .word h _
  | negated h bang span text htouch =>
    obtain ⟨hbang, hbang', hd, -⟩ := hos.head
    obtain ⟨hspan, hspan', -, -⟩ := hos.tail.head
    simp only at hbang hbang' hd hspan hspan'
    rw [union_shift hbang hbang'.le hd (by omega) hspan'.le]
    refine .negated h _ _ text ?_
    rw [Span.shift_nonneg hbang, Span.shift_nonneg hspan]
    simp only
    omega
  | matchesRegex span next =>
    obtain ⟨lo, hi, hlo, hlo', ⟨hstart, hspan, hstart', hspan', -⟩, -⟩ := hos
    simp only at hstart hspan hstart' hspan'
    rw [union_shift (by omega) hspan.le (by omega) hstart' hspan'.le]
    exact .matchesRegex _ _

/-- The parts of a name are spelled by their tokens wherever they stand. -/
theorem SpellsParts.shift {name whole : String} {span all : Span} {ts : List Token}
    (h : SpellsParts src name span whole all ts) (hspan : 0 ≤ span.start) (hspan' : span.start ≤ span.stop)
    (hd : 0 ≤ span.start + d) (hts : CopiedTo src src' d ts) :
    SpellsParts src' name (span.shift d) whole (all.shift d) (ts.map (Token.shift d)) := by
  induction h with
  | none name span => exact .none name _
  | @part name whole span all dot part ts hdot htouch hpart htouch' _ ih =>
    obtain ⟨hdotStart, hdotSpan, -, -⟩ := hts.head
    obtain ⟨hpartStart, hpartSpan, -, hat⟩ := hts.tail.head
    have hunion := @union_two span part.span (Span.isValid_iff.2 ⟨hspan, hspan'⟩)
      (Span.isValid_iff.2 ⟨hpartStart, hpartSpan.le⟩) (by omega) (by omega)
    have hrest := ih (by rw [hunion]; exact hspan) (by rw [hunion]; simp only; omega)
      (by rw [hunion]; exact hd) hts.tail.tail
    rw [union_shift hspan hspan' hd (by omega) hpartSpan.le, ← hat] at hrest
    refine .part hdot ?_ hpart ?_ hrest
    · rw [Token.shift_span, Span.shift_nonneg hdotStart, Span.shift_nonneg hspan]
      simp only
      omega
    · rw [Token.shift_span, Token.shift_span, Span.shift_nonneg hdotStart, Span.shift_nonneg hpartStart]
      simp only
      omega

/-- A name is spelled by its tokens wherever they stand. -/
theorem spellsIdent_shift {id : Syntax.Ident} {ts : List Token} (h : spellsIdent src id ts)
    (hts : CopiedTo src src' d ts) :
    spellsIdent src' (id.mapSpans (Span.shift d)) (ts.map (Token.shift d)) := by
  unfold spellsIdent at h ⊢
  by_cases hquoted : id.quoted = true
  · rw [if_pos hquoted] at h
    rw [if_pos (by exact hquoted), h]
    rfl
  · rw [if_neg hquoted] at h
    obtain ⟨first, parts, rfl, hfirst, hparts, hword⟩ := h
    obtain ⟨hstart, hspan, hd, -⟩ := hts.head
    rw [if_neg (by exact hquoted)]
    refine ⟨first.shift d, parts.map (Token.shift d), rfl, hfirst, ?_, fun hnone => hword ?_⟩
    · exact hparts.shift hstart hspan.le hd hts.tail
    · exact List.map_eq_nil_iff.1 hnone

/-- A literal is spelled by its token wherever it stands. -/
theorem spellsLiteral_shift {lit : Syntax.BasicLit} {ts : List Token} (h : spellsLiteral lit ts) :
    spellsLiteral (lit.mapSpans (Span.shift d)) (ts.map (Token.shift d)) := by
  obtain ⟨span, kind, value⟩ := lit
  cases kind
  case bool =>
    obtain ⟨hts, hvalue⟩ := h
    exact ⟨congrArg (List.map (Token.shift d)) hts, hvalue⟩
  all_goals exact congrArg (List.map (Token.shift d)) h

/-- The place of an expression that is written in both texts. -/
theorem span_shift {x : Syntax.Expr} {ts : List Token} (hts : CopiedTo src src' d ts) (hx : spells src x ts)
    (hx' : spells src' (x.mapSpans (Span.shift d)) (ts.map (Token.shift d))) :
    (x.mapSpans (Span.shift d)).span = ⟨x.span.start + d, x.span.stop + d⟩ := by
  obtain ⟨lo, hi, hlo, hlo', hplaced, -⟩ := hts
  obtain ⟨hne, hspan⟩ := spells_extent x ts lo hi hx hlo hplaced
  obtain ⟨-, hspan'⟩ := spells_extent _ _ _ _ hx' hlo' (hplaced.shift hlo d)
  have hstart := (hplaced.extent hne).1
  rw [hspan', hspan, extent_shift hplaced hlo hne, Span.shift_nonneg (by omega)]

/-- A quoted index is shifted with its token. -/
theorem quotedIndex_shift (x : Syntax.Expr) {tok : Token} (hstart : 0 ≤ tok.span.start)
    (hspan : tok.span.start < tok.span.stop) :
    (quotedIndex x tok).mapSpans (Span.shift d) = quotedIndex (x.mapSpans (Span.shift d)) (tok.shift d) := by
  have hplace : ∀ start stop start' stop', 0 ≤ start → start + d = start' → stop + d = stop' →
      (⟨start, stop⟩ : Span).shift d = ⟨start', stop'⟩ := by
    rintro start stop _ _ hstart rfl rfl
    exact Span.shift_nonneg hstart
  simp only [quotedIndex, Syntax.Expr.mapSpans, Syntax.BasicLit.mapSpans, Token.shift_span, Token.shift_value,
    Span.shift_nonneg hstart]
  rw [hplace _ _ (tok.span.start + d) (tok.span.start + d + 1), hplace _ _ (tok.span.start + d + 1)
    (tok.span.stop + d - 1), hplace _ _ (tok.span.stop + d - 1) (tok.span.stop + d)]
  all_goals omega

mutual

/-- An expression is written in the other text as it is in the first. -/
theorem spells_shift : ∀ (x : Syntax.Expr) (ts : List Token), CopiedTo src src' d ts → spells src x ts →
    spells src' (x.mapSpans (Span.shift d)) (ts.map (Token.shift d))
  | .ident _, _, hts, h => spellsIdent_shift h hts
  | .param _, _, _, h => congrArg (List.map (Token.shift d)) h
  | .basicLit _, _, _, h => spellsLiteral_shift h
  | .binary x span op y, ts, hts, h => by
    obtain ⟨xs, os, ys, rfl, hx, hop, hy⟩ := h
    obtain ⟨hxs, hrest⟩ := hts.append
    obtain ⟨hos, hys⟩ := hrest.append
    exact ⟨_, _, _, by simp only [List.map_append], spells_shift x xs hxs hx, hop.shift hos, spells_shift y ys hys hy⟩
  | .inList x span negated lparen first rest rparen, ts, hts, h => by
    obtain ⟨xs, os, value, fs, rs, rfl, hx, hop, hfirst, hrest⟩ := h
    obtain ⟨hxs, hafter⟩ := hts.append
    obtain ⟨hos, hlist⟩ := hafter.append
    obtain ⟨hfs, hrs⟩ := hlist.tail.append
    exact ⟨_, _, value, _, _, by simp only [List.map_append, List.map_cons]; rfl, spells_shift x xs hxs hx, hop.shift hos,
      spells_shift first fs hfs hfirst, spellsRest_shift rest rparen rs hrs hrest⟩
  | .unary span op x, ts, hts, h => by
    obtain ⟨kind, value, xs, rfl, hsign, hx⟩ := h
    exact ⟨kind, value, _, rfl, hsign, spells_shift x xs hts.tail hx⟩
  | .paren lparen x rparen, ts, hts, h => by
    obtain ⟨value, xs, value', rfl, hx⟩ := h
    exact ⟨value, _, value', by simp only [List.map_cons, List.map_append]; rfl,
      spells_shift x xs hts.tail.append.1 hx⟩
  | .call func lparen args rparen, ts, hts, h => by
    obtain ⟨hquoted, value, as, rfl, hargs⟩ := h
    exact ⟨hquoted, value, _, rfl, spellsArgs_shift args rparen as hts.tail.tail hargs⟩
  | .member x dot name, ts, hts, h => by
    obtain ⟨hquoted, xs, value, kind, rfl, hkind, htouch, htouch', hx⟩ := h
    obtain ⟨hxs, hmember⟩ := hts.append
    obtain ⟨hdot, hdot', -, -⟩ := hmember.head
    obtain ⟨hname, -, -, -⟩ := hmember.tail.head
    have hx' := spells_shift x xs hxs hx
    have hspan := span_shift hxs hx hx'
    simp only at hdot hdot' hname
    refine ⟨hquoted, _, value, kind, by rw [List.map_append]; rfl, hkind, ?_, ?_, hx'⟩
    · rw [Span.shift_nonneg hdot, hspan]
      simp only
      omega
    · rw [Syntax.Ident.mapSpans, Span.shift_nonneg hname, Span.shift_nonneg hdot]
      simp only
      omega
  | .index x lbrack i rbrack, ts, hts, h => by
    obtain ⟨xs, hx, ⟨tok, rfl, hkind, hquoted⟩ | ⟨value, is, value', rfl, hi⟩⟩ := h
    · obtain ⟨hxs, htok⟩ := hts.append
      obtain ⟨hstart, hspan, -, -⟩ := htok.head
      refine ⟨_, spells_shift x xs hxs hx, .inl ⟨tok.shift d, by rw [List.map_append]; rfl, hkind, ?_⟩⟩
      rw [← quotedIndex_shift x hstart hspan, ← hquoted]
      rfl
    · obtain ⟨hxs, hindex⟩ := hts.append
      exact ⟨_, spells_shift x xs hxs hx, .inr ⟨value, _, value', by
        simp only [List.map_append, List.map_cons]; rfl, spells_shift i is hindex.tail.append.1 hi⟩⟩

/-- Arguments after a comma are spelled by their tokens wherever they stand. -/
theorem spellsRest_shift : ∀ (es : List Syntax.Expr) (rparen : Span) (ts : List Token),
    CopiedTo src src' d ts → spellsRest src es rparen ts →
    spellsRest src' (Syntax.Expr.mapSpansAll (Span.shift d) es) (rparen.shift d) (ts.map (Token.shift d))
  | [], _, _, _, h => by
    obtain ⟨value, rfl⟩ := h
    exact ⟨value, rfl⟩
  | e :: es, rparen, ts, hts, h => by
    obtain ⟨span, value, xs, rs, rfl, he, hes⟩ := h
    obtain ⟨hxs, hrs⟩ := hts.tail.append
    exact ⟨_, value, _, _, by simp only [List.map_cons, List.map_append]; rfl, spells_shift e xs hxs he,
      spellsRest_shift es rparen rs hrs hes⟩

/-- Arguments are spelled by their tokens wherever they stand. -/
theorem spellsArgs_shift : ∀ (es : List Syntax.Expr) (rparen : Span) (ts : List Token),
    CopiedTo src src' d ts → spellsArgs src es rparen ts →
    spellsArgs src' (Syntax.Expr.mapSpansAll (Span.shift d) es) (rparen.shift d) (ts.map (Token.shift d))
  | [], _, _, _, h => by
    obtain ⟨value, rfl⟩ := h
    exact ⟨value, rfl⟩
  | e :: es, rparen, ts, hts, h => by
    obtain ⟨xs, rs, rfl, he, hes⟩ := h
    obtain ⟨hxs, hrs⟩ := hts.append
    exact ⟨_, _, by simp only [List.map_append], spells_shift e xs hxs he, spellsRest_shift es rparen rs hrs hes⟩

end

/-- A primary expression is one at any place. -/
theorem isPrimary_mapSpans (f : Span → Span) (x : Syntax.Expr) : isPrimary (x.mapSpans f) = isPrimary x := by
  cases x <;> rfl

/-- A word is one at any place. -/
theorem isWord_mapSpans (f : Span → Span) (x : Syntax.Expr) : isWord (x.mapSpans f) = isWord x := by
  cases x <;> rfl

/-- The last operator is the same at any place. -/
theorem lastOperator_mapSpans (f : Span → Span) (x : Syntax.Expr) :
    lastOperator (x.mapSpans f) = lastOperator x := by
  cases x <;> rfl

/-- What can follow an expression is the same at any place. -/
theorem canFollow_mapSpans (f : Span → Span) (x : Syntax.Expr) (op : Operator) :
    canFollow (x.mapSpans f) op ↔ canFollow x op := by
  rw [canFollow, lastOperator_mapSpans, canFollow]

mutual

/-- A well-formed expression is one at any place. -/
theorem wellFormed_mapSpans (f : Span → Span) : ∀ (x : Syntax.Expr) (m : ℕ), wellFormed x m →
    wellFormed (x.mapSpans f) m
  | .ident _, _, _ => trivial
  | .param _, _, _ => trivial
  | .basicLit _, _, _ => trivial
  | .binary x _ _ y, m, ⟨hm, hx, hfollows, hy⟩ =>
    ⟨hm, wellFormed_mapSpans f x m hx, (canFollow_mapSpans f x _).2 hfollows, wellFormed_mapSpans f y _ hy⟩
  | .inList x _ _ _ first rest _, m, ⟨hm, hx, hfollows, hfirst, hrest⟩ =>
    ⟨hm, wellFormed_mapSpans f x m hx, (canFollow_mapSpans f x _).2 hfollows,
      wellFormed_mapSpans f first 0 hfirst, allWellFormed_mapSpans f rest hrest⟩
  | .unary _ _ x, m, ⟨hprimary, hx⟩ =>
    ⟨(isPrimary_mapSpans f x).trans hprimary, wellFormed_mapSpans f x m hx⟩
  | .paren _ x _, _, h => wellFormed_mapSpans f x 0 h
  | .call _ _ args _, _, h => allWellFormed_mapSpans f args h
  | .member x _ _, m, ⟨hprimary, hword, hx⟩ =>
    ⟨(isPrimary_mapSpans f x).trans hprimary, (isWord_mapSpans f x).trans hword, wellFormed_mapSpans f x m hx⟩
  | .index x _ i _, m, ⟨hprimary, hx, hi⟩ =>
    ⟨(isPrimary_mapSpans f x).trans hprimary, wellFormed_mapSpans f x m hx, wellFormed_mapSpans f i 0 hi⟩

/-- Well-formed expressions are so at any place. -/
theorem allWellFormed_mapSpans (f : Span → Span) : ∀ es : List Syntax.Expr, allWellFormed es →
    allWellFormed (Syntax.Expr.mapSpansAll f es)
  | [], _ => trivial
  | e :: es, h => ⟨wellFormed_mapSpans f e 0 h.1, allWellFormed_mapSpans f es h.2⟩

end

/-- An expression is spelled by its tokens wherever they stand. -/
theorem spellsExpr_shift {x : Syntax.Expr} {ts : List Token} (hts : CopiedTo src src' d ts)
    (h : spellsExpr src x ts) : spellsExpr src' (x.mapSpans (Span.shift d)) (ts.map (Token.shift d)) :=
  ⟨wellFormed_mapSpans _ x 0 h.1, spells_shift x ts hts h.2⟩

end Expressions

section Stages

variable {src src' : Source} {d : ℤ}

/-- No place stays none. -/
theorem Span.shift_null : Span.null.shift d = .null := if_pos rfl

/-- Things between separators are spelled by their tokens wherever they stand, if each is. -/
theorem separated_shift {α : Type} {kind : TokenKind} {spell spell' : α → List Token → Prop} {g : α → α}
    (hspell : ∀ a ts, CopiedTo src src' d ts → spell a ts → spell' (g a) (ts.map (Token.shift d)))
    {as : List α} {ts : List Token} (hts : CopiedTo src src' d ts) (h : separated kind spell as ts) :
    separated kind spell' (as.map g) (ts.map (Token.shift d)) := by
  induction as generalizing ts with
  | nil => exact h
  | cons a as ih =>
    cases as with
    | nil => exact hspell a ts hts h
    | cons b as =>
      obtain ⟨span, value, us, vs, rfl, ha, hrest⟩ := h
      obtain ⟨hus, hvs⟩ := hts.append
      exact ⟨_, value, _, _, by rw [List.map_append, List.map_cons]; rfl, hspell a us hus ha, ih hvs.tail hrest⟩

/-- A column is spelled by its tokens wherever they stand. -/
theorem spellsColumn_shift {naming : Bool} {e : Syntax.NamedExpr} {ts : List Token}
    (hts : CopiedTo src src' d ts) (h : spellsColumn src naming e ts) :
    spellsColumn src' naming (e.mapSpans (Span.shift d)) (ts.map (Token.shift d)) := by
  obtain ⟨name, x⟩ := e
  cases name with
  | none => exact spellsExpr_shift hts h
  | some id =>
    obtain ⟨hnaming, span, value, us, rfl, hx⟩ := h
    exact ⟨hnaming, _, value, _, rfl, spellsExpr_shift hts.tail.tail hx⟩

/-- Columns are spelled by their tokens wherever they stand. -/
theorem spellsColumns_shift {naming : Bool} {columns : List Syntax.NamedExpr} {ts : List Token}
    (hts : CopiedTo src src' d ts) (h : spellsColumns src naming columns ts) :
    spellsColumns src' naming (columns.map (·.mapSpans (Span.shift d))) (ts.map (Token.shift d)) :=
  separated_shift (fun _ _ hts h => spellsColumn_shift hts h) hts h

/-- A direction is spelled by its token wherever it stands. -/
theorem SpellsDirection.shift {asc : Bool} {span : Span} {ts : List Token} (h : SpellsDirection asc span ts) :
    SpellsDirection asc (span.shift d) (ts.map (Token.shift d)) := by
  cases h with
  | none => exact Span.shift_null (d := d) ▸ .none
  | asc span => exact .asc _
  | desc span => exact .desc _

/-- A place of nulls is spelled by its tokens wherever they stand. -/
theorem SpellsNulls.shift {span endSpan : Span} {nulls : Option Syntax.Nulls} {ts : List Token}
    (h : SpellsNulls span nulls endSpan ts) :
    SpellsNulls (span.shift d) nulls (endSpan.shift d) (ts.map (Token.shift d)) := by
  cases h with
  | none => exact .none
  | first nulls which => exact .first _ _
  | last nulls which => exact .last _ _

/-- A sort key is spelled by its tokens wherever they stand. -/
theorem spellsKey_shift {k : Syntax.SortKey} {ts : List Token} (hts : CopiedTo src src' d ts)
    (h : spellsKey src k ts) : spellsKey src' (k.mapSpans (Span.shift d)) (ts.map (Token.shift d)) := by
  obtain ⟨us, ds, ns, span, rfl, hx, hdirection, hnulls⟩ := h
  exact ⟨_, _, _, _, by simp only [List.map_append], spellsExpr_shift hts.append.1 hx, hdirection.shift,
    hnulls.shift⟩

/-- The next word is the same at any place. -/
theorem atWord_shift (word : String) (ts : List Token) :
    Parser.atWord word (ts.map (Token.shift d)) = Parser.atWord word ts := by
  cases ts <;> rfl

/-- A stage is written in the other text as it is in the first. -/
theorem spellsStage_shift {s : Syntax.Stage} (pipe : Span) {ts : List Token} (hts : CopiedTo src src' d ts)
    (h : spellsStage src s ts) : spellsStage src' (s.moved (Span.shift d) pipe) (ts.map (Token.shift d)) := by
  cases s with
  | whereStage _ keyword p =>
    obtain ⟨us, rfl, hp⟩ := h
    exact ⟨_, rfl, spellsExpr_shift hts.tail hp⟩
  | searchTextStage _ keyword term =>
    obtain ⟨hkind, rfl⟩ := h
    exact ⟨hkind, rfl⟩
  | searchParamStage _ keyword term => exact congrArg (List.map (Token.shift d)) h
  | projectStage _ keyword columns =>
    obtain ⟨us, rfl, hcolumns⟩ := h
    exact ⟨_, rfl, spellsColumns_shift hts.tail hcolumns⟩
  | extendStage _ keyword columns =>
    obtain ⟨us, rfl, hcolumns⟩ := h
    exact ⟨_, rfl, spellsColumns_shift hts.tail hcolumns⟩
  | distinctStage _ keyword columns =>
    obtain ⟨us, rfl, hcolumns⟩ := h
    exact ⟨_, rfl, spellsColumns_shift hts.tail hcolumns⟩
  | summarizeStage _ keyword aggregates columnsBy =>
    obtain ⟨us, vs, rfl, hne, haggregates, hby⟩ := h
    obtain ⟨hus, hvs⟩ := hts.tail.append
    refine ⟨us.map (Token.shift d), vs.map (Token.shift d), by rw [List.map_cons, List.map_append]; rfl, ?_, ?_, ?_⟩
    · rwa [← List.map_append, ne_eq, List.map_eq_nil_iff]
    · rcases haggregates with ⟨rfl, rfl⟩ | ⟨hcolumns, hword⟩
      · exact .inl ⟨rfl, rfl⟩
      · exact .inr ⟨spellsColumns_shift hus hcolumns, by rwa [atWord_shift]⟩
    · rcases hby with ⟨rfl, rfl⟩ | ⟨span, ws, rfl, hcolumns⟩
      · exact .inl ⟨rfl, rfl⟩
      · exact .inr ⟨_, _, rfl, spellsColumns_shift hvs.tail hcolumns⟩
  | sortStage _ keyword keys =>
    obtain ⟨word, kspan, bspan, us, hword, rfl, rfl, hkeys⟩ := h
    obtain ⟨lo, hi, hlo, hlo', ⟨hstart, hspan, hstart', hspan', -⟩, -⟩ := id hts
    simp only at hstart hspan hstart' hspan'
    refine ⟨word, _, _, _, hword, rfl, ?_, separated_shift (fun _ _ hts h => spellsKey_shift hts h) hts.tail.tail hkeys⟩
    exact union_shift (by omega) hspan.le (by omega) hstart' hspan'.le
  | takeStage _ keyword n =>
    obtain ⟨word, hword, hkind, rfl⟩ := h
    exact ⟨word, hword, hkind, rfl⟩
  | topStage _ keyword n key =>
    obtain ⟨span, us, hkind, rfl, hkey⟩ := h
    exact ⟨_, _, hkind, rfl, spellsKey_shift hts.tail.tail.tail hkey⟩
  | countStage _ keyword => exact congrArg (List.map (Token.shift d)) h

/-- The stage with each of its places so many bytes on. -/
def Syntax.Stage.shift (d : ℤ) (s : Syntax.Stage) : Syntax.Stage := s.moved (Span.shift d) (s.pipe.shift d)

/-- A stage that is moved has the pipe it is moved behind. -/
theorem Syntax.Stage.pipe_moved (s : Syntax.Stage) (f : Span → Span) (pipe : Span) :
    (s.moved f pipe).pipe = pipe := by
  cases s <;> rfl

/-- Stages are spelled by their tokens wherever they stand. -/
theorem spellsPiped_shift {stages : List Syntax.Stage} {ts : List Token} (hts : CopiedTo src src' d ts)
    (h : spellsPiped src stages ts) :
    spellsPiped src' (stages.map (Syntax.Stage.shift d)) (ts.map (Token.shift d)) := by
  induction stages generalizing ts with
  | nil => exact congrArg (List.map (Token.shift d)) h
  | cons s rest ih =>
    obtain ⟨value, us, vs, rfl, hs, hrest⟩ := h
    obtain ⟨hus, hvs⟩ := hts.tail.append
    refine ⟨value, us.map (Token.shift d), vs.map (Token.shift d), ?_, spellsStage_shift _ hus hs, ih hvs hrest⟩
    rw [List.map_cons, List.map_append, Syntax.Stage.shift, Syntax.Stage.pipe_moved]
    rfl

/-- Each of the shifted stages is the stage moved. -/
theorem forall₂_movesTo_shift (stages : List Syntax.Stage) :
    List.Forall₂ Syntax.Stage.MovesTo stages (stages.map (Syntax.Stage.shift d)) := by
  rw [List.forall₂_map_right_iff, List.forall₂_same]
  exact fun s _ => ⟨_, _, rfl⟩

end Stages

end SolidTrace.LogQuery
