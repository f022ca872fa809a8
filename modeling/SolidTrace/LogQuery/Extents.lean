import SolidTrace.LogQuery.Placed
import SolidTrace.LogQuery.QuerySpelling

/-!
# Places of trees

A tree's place is that of the tokens it is written with, from the first to the last.
-/

namespace SolidTrace.LogQuery

section Extents

/-- The place of some tokens, from the first to the last. -/
def extent : List Token → Span
  | [] => .null
  | tok :: ts => ⟨tok.span.start, (ts.getLastD tok).span.stop⟩

/-- One token extends as far as its span. -/
@[simp] theorem extent_singleton (tok : Token) : extent [tok] = tok.span := rfl

/-- Tokens start where the first of them does. -/
theorem extent_cons_start (tok : Token) (ts : List Token) :
    (extent (tok :: ts)).start = tok.span.start := rfl

/-- Tokens stop where the last of them does. -/
theorem extent_append_stop (ts : List Token) (tok : Token) :
    (extent (ts ++ [tok])).stop = tok.span.stop := by
  cases ts with
  | nil => rfl
  | cons t ts => simp [extent]

/-- Two runs of tokens start with the first and stop with the second. -/
theorem extent_append {us vs : List Token} (hus : us ≠ []) (hvs : vs ≠ []) :
    extent (us ++ vs) = ⟨(extent us).start, (extent vs).stop⟩ := by
  obtain ⟨u, us, rfl⟩ := List.exists_cons_of_ne_nil hus
  obtain ⟨vs, v, rfl⟩ := List.eq_nil_or_concat' vs |>.resolve_left hvs
  rw [extent_append_stop]
  simp [extent, ← List.append_assoc]

/-- Tokens that are placed extend within their bounds, and over something. -/
theorem Placed.extent {lo hi : ℤ} {ts : List Token} (h : Placed lo ts hi) (hts : ts ≠ []) :
    lo ≤ (extent ts).start ∧ (LogQuery.extent ts).start < (LogQuery.extent ts).stop ∧
      (LogQuery.extent ts).stop ≤ hi := by
  induction ts generalizing lo with
  | nil => exact absurd rfl hts
  | cons tok ts ih =>
    cases ts with
    | nil => exact ⟨h.1, h.2.1, h.2.2⟩
    | cons tok' ts =>
      obtain ⟨hlo, hspan, hhi⟩ := ih h.2.2 (List.cons_ne_nil tok' ts)
      have hstart := h.1
      have htok := h.2.1
      have hstop : (LogQuery.extent (tok :: tok' :: ts)).stop = (LogQuery.extent (tok' :: ts)).stop := by
        rw [LogQuery.extent, LogQuery.extent, List.getLastD_cons]
      rw [hstop, extent_cons_start]
      exact ⟨hstart, by omega, hhi⟩

/-- A span that lies between two places, and is not empty. -/
def Within (lo : ℤ) (s : Span) (hi : ℤ) : Prop := lo ≤ s.start ∧ s.start < s.stop ∧ s.stop ≤ hi

/-- A span within bounds from 0 on is a valid one. -/
theorem Within.valid {lo hi : ℤ} {s : Span} (h : Within lo s hi) (hlo : 0 ≤ lo) :
    s.isValid = true :=
  Span.isValid_iff.2 ⟨le_trans hlo h.1, h.2.1.le⟩

/-- The union of two spans in order goes from the first to the last. -/
theorem union_two {a b : Span} (ha : a.isValid = true) (hb : b.isValid = true)
    (hstart : a.start ≤ b.start) (hstop : a.stop ≤ b.stop) : Span.union [a, b] = ⟨a.start, b.stop⟩ := by
  have hnull : Span.null.isValid = false := rfl
  simp [Span.union, ha, hb, hnull, min_eq_left hstart, max_eq_right hstop]

/-- The union of three spans in order goes from the first to the last. -/
theorem union_three {a b c : Span} (ha : a.isValid = true) (hb : b.isValid = true)
    (hc : c.isValid = true) (hab : a.start ≤ b.start) (hbc : b.start ≤ c.start)
    (hab' : a.stop ≤ b.stop) (hbc' : b.stop ≤ c.stop) : Span.union [a, b, c] = ⟨a.start, c.stop⟩ := by
  have hnull : Span.null.isValid = false := rfl
  have hvalid : (⟨a.start, b.stop⟩ : Span).isValid = true := by
    rw [Span.isValid_iff] at ha hb ⊢
    simp only
    omega
  simp [Span.union, ha, hb, hc, hnull, hvalid, min_eq_left hab, max_eq_right hab',
    min_eq_left (hab.trans hbc), max_eq_right hbc']

/-- The union of the places of two runs of tokens is that of both together. -/
theorem union_extents {lo hi : ℤ} {us vs : List Token} (h : Placed lo (us ++ vs) hi) (hlo : 0 ≤ lo)
    (hus : us ≠ []) (hvs : vs ≠ []) : Span.union [extent us, extent vs] = extent (us ++ vs) := by
  obtain ⟨mid, hplaced, hplaced'⟩ := placed_append.1 h
  have hu : Within lo (extent us) mid := hplaced.extent hus
  have hv : Within mid (extent vs) hi := hplaced'.extent hvs
  rw [extent_append hus hvs]
  have hmid := hlo.trans hplaced.le
  obtain ⟨hu₁, hu₂, hu₃⟩ := hu
  obtain ⟨hv₁, hv₂, hv₃⟩ := hv
  refine union_two (Span.isValid_iff.2 ?_) (Span.isValid_iff.2 ?_) ?_ ?_
  all_goals omega

/-- Of three runs, too. -/
theorem union_three_extents {lo hi : ℤ} {us vs ws : List Token} (h : Placed lo (us ++ (vs ++ ws)) hi)
    (hlo : 0 ≤ lo) (hus : us ≠ []) (hvs : vs ≠ []) (hws : ws ≠ []) :
    Span.union [extent us, extent vs, extent ws] = extent (us ++ (vs ++ ws)) := by
  obtain ⟨mid, hplaced, hplaced'⟩ := placed_append.1 h
  obtain ⟨mid', hplaced', hplaced''⟩ := placed_append.1 hplaced'
  have hu : Within lo (extent us) mid := hplaced.extent hus
  have hv : Within mid (extent vs) mid' := hplaced'.extent hvs
  have hw : Within mid' (extent ws) hi := hplaced''.extent hws
  rw [extent_append hus (by simp [hvs]), extent_append hvs hws]
  have hmid := hlo.trans hplaced.le
  obtain ⟨hu₁, hu₂, hu₃⟩ := hu
  obtain ⟨hv₁, hv₂, hv₃⟩ := hv
  obtain ⟨hw₁, hw₂, hw₃⟩ := hw
  refine union_three (Span.isValid_iff.2 ?_) (Span.isValid_iff.2 ?_) (Span.isValid_iff.2 ?_) ?_ ?_ ?_ ?_
  all_goals omega

end Extents

section Expressions

variable {src : Source}

/-- An operator's span is the extent of its tokens. -/
theorem spellsOperator_extent {op : Operator} {span : Span} {os : List Token}
    (h : SpellsOperator op span os) {lo hi : ℤ} (hlo : 0 ≤ lo) (hplaced : Placed lo os hi) :
    os ≠ [] ∧ span = extent os := by
  cases h with
  | symbol => exact ⟨by simp, rfl⟩
  | word => exact ⟨by simp, rfl⟩
  | negated => exact ⟨by simp, @union_extents lo hi [_] [_] hplaced hlo (by simp) (by simp)⟩
  | matchesRegex =>
    exact ⟨by simp, @union_extents lo hi [_] [_] hplaced hlo (by simp) (by simp)⟩

/-- The parts of a name extend to where they are said to. -/
theorem spellsParts_extent {name whole : String} {span all : Span} {parts : List Token}
    (h : SpellsParts src name span whole all parts) {us : List Token} {lo hi : ℤ} (hlo : 0 ≤ lo)
    (hus : us ≠ []) (hspan : span = extent us) (hplaced : Placed lo (us ++ parts) hi) :
    all = extent (us ++ parts) := by
  induction h generalizing us with
  | none => rw [List.append_nil, hspan]
  | @part name whole span all dot part ts hdot htouch hpart htouch' hrest ih =>
    have hplaced' : Placed lo ((us ++ [dot, part]) ++ ts) hi := by
      rwa [List.append_assoc]
    obtain ⟨mid, hus', -⟩ := placed_append.1 hplaced'
    have hall : Span.union [span, part.span] = extent (us ++ [dot, part]) := by
      obtain ⟨mid', hplaced₁, hplaced₂⟩ := placed_append.1 hus'
      have hu : Within lo (extent us) mid' := hplaced₁.extent hus
      obtain ⟨hd₁, hd₂, hp₁, hp₂, -⟩ := hplaced₂
      have hmid := hlo.trans hplaced₁.le
      obtain ⟨hu₁, hu₂, hu₃⟩ := hu
      rw [hspan, extent_append hus (by simp)]
      refine union_two (Span.isValid_iff.2 ?_) (Span.isValid_iff.2 ?_) ?_ ?_
      all_goals omega
    rw [ih (by simp) hall hplaced', List.append_assoc]
    rfl

/-- Arguments after a comma end in the closing parenthesis. -/
theorem spellsRest_last {es : List Syntax.Expr} {rparen : Span} {ts : List Token}
    (h : spellsRest src es rparen ts) : ∃ us value, ts = us ++ [⟨.rparen, rparen, value⟩] := by
  induction es generalizing ts with
  | nil =>
    obtain ⟨value, rfl⟩ := h
    exact ⟨[], value, rfl⟩
  | cons e es ih =>
    obtain ⟨span, value, xs, rs, rfl, -, hrest⟩ := h
    obtain ⟨us, value', rfl⟩ := ih hrest
    exact ⟨⟨.comma, span, value⟩ :: (xs ++ us), value', by simp⟩

/-- Arguments end in the closing parenthesis. -/
theorem spellsArgs_last {es : List Syntax.Expr} {rparen : Span} {ts : List Token}
    (h : spellsArgs src es rparen ts) : ∃ us value, ts = us ++ [⟨.rparen, rparen, value⟩] := by
  cases es with
  | nil =>
    obtain ⟨value, rfl⟩ := h
    exact ⟨[], value, rfl⟩
  | cons e es =>
    obtain ⟨xs, rs, rfl, -, hrest⟩ := h
    obtain ⟨us, value, rfl⟩ := spellsRest_last hrest
    exact ⟨xs ++ us, value, by simp⟩

/-- Brackets around some tokens, with what is before them. -/
theorem union_brackets {lo hi : ℤ} {us vs : List Token} {l r : Token}
    (h : Placed lo (us ++ l :: (vs ++ [r])) hi) (hlo : 0 ≤ lo) (hus : us ≠ []) :
    Span.union [extent us, l.span, r.span] = extent (us ++ l :: (vs ++ [r])) := by
  obtain ⟨mid, hplaced, hl₁, hl₂, hplaced'⟩ := placed_append.1 h
  obtain ⟨mid', hplaced', hr₁, hr₂, -⟩ := placed_append.1 hplaced'
  have hmid := hlo.trans hplaced.le
  have hmid' := hplaced'.le
  obtain ⟨hu₁, hu₂, hu₃⟩ : Within lo (extent us) mid := hplaced.extent hus
  have hstop : (extent (l :: (vs ++ [r]))).stop = r.span.stop := extent_append_stop (l :: vs) r
  rw [extent_append hus (by simp), hstop]
  refine union_three (Span.isValid_iff.2 ?_) (Span.isValid_iff.2 ?_) (Span.isValid_iff.2 ?_) ?_ ?_ ?_ ?_
  all_goals omega

/-- The union of the first and the last token's spans is the extent of all of them. -/
theorem union_pair {lo hi : ℤ} {vs : List Token} {l r : Token} (h : Placed lo (l :: (vs ++ [r])) hi)
    (hlo : 0 ≤ lo) : Span.union [l.span, r.span] = extent (l :: (vs ++ [r])) := by
  obtain ⟨hl₁, hl₂, hplaced⟩ := h
  obtain ⟨mid, hplaced, hr₁, hr₂, -⟩ := placed_append.1 hplaced
  have hmid := hplaced.le
  have hstop : (extent (l :: (vs ++ [r]))).stop = r.span.stop := extent_append_stop (l :: vs) r
  have hextent : extent (l :: (vs ++ [r])) = ⟨l.span.start, r.span.stop⟩ := by rw [← hstop]; rfl
  rw [hextent]
  refine union_two (Span.isValid_iff.2 ?_) (Span.isValid_iff.2 ?_) ?_ ?_
  all_goals omega

/-- The place of an expression is that of its tokens, however it is written. -/
def HasExtent (src : Source) (x : Syntax.Expr) : Prop :=
  ∀ (ts : List Token) (lo hi : ℤ), spells src x ts → 0 ≤ lo → Placed lo ts hi →
    ts ≠ [] ∧ x.span = extent ts

/-- A name's span is the extent of its tokens. -/
theorem ident_extent (id : Syntax.Ident) :
    HasExtent src (.ident id) := by
  intro ts lo hi h hlo hplaced
  unfold spells spellsIdent at h
  split at h
  · subst h
    exact ⟨by simp, rfl⟩
  · obtain ⟨first, parts, rfl, -, hparts, -⟩ := h
    exact ⟨by simp, @spellsParts_extent src _ _ _ _ _ hparts [first] _ _ hlo (by simp) rfl hplaced⟩

/-- A parameter's span is the extent of its token. -/
theorem param_extent (p : Syntax.Param) :
    HasExtent src (.param p) := by
  intro ts lo hi h _ _
  unfold spells at h
  subst h
  exact ⟨by simp, rfl⟩

/-- A literal's span is the extent of its token. -/
theorem basicLit_extent (lit : Syntax.BasicLit) :
    HasExtent src (.basicLit lit) := by
  intro ts lo hi h _ _
  obtain ⟨span, kind, value⟩ := lit
  cases kind
  case bool =>
    obtain ⟨rfl, -⟩ := h
    exact ⟨by simp, rfl⟩
  all_goals
    obtain rfl : ts = [_] := h
    exact ⟨by simp, rfl⟩

/-- A binary operation's span is the extent of its tokens. -/
theorem binary_extent {x y : Syntax.Expr} (span : Span) (op : Syntax.BinaryOp)
    (hasX : HasExtent src x) (hasY : HasExtent src y) :
    HasExtent src (.binary x span op y) := by
  intro ts lo hi h hlo hplaced
  obtain ⟨xs, os, ys, rfl, hx, hop, hy⟩ := h
  obtain ⟨mid, hxs, hrest⟩ := placed_append.1 hplaced
  obtain ⟨mid', hos, hys⟩ := placed_append.1 hrest
  have hmid := hlo.trans hxs.le
  obtain ⟨hxne, hxspan⟩ := hasX xs _ _ hx hlo hxs
  obtain ⟨hone, hospan⟩ := spellsOperator_extent hop hmid hos
  obtain ⟨hyne, hyspan⟩ := hasY ys _ _ hy (hmid.trans hos.le) hys
  refine ⟨by simp [hxne], ?_⟩
  change Span.union [x.span, span, y.span] = _
  rw [hxspan, hospan, hyspan]
  exact union_three_extents hplaced hlo hxne hone hyne

/-- An in's span is the extent of its tokens, from its left side to the closing parenthesis. -/
theorem inList_extent {x : Syntax.Expr} (span : Span) (negated : Bool) (lparen : Span)
    (first : Syntax.Expr) (rest : List Syntax.Expr) (rparen : Span)
    (hasX : HasExtent src x) :
    HasExtent src (.inList x span negated lparen first rest rparen) := by
  intro ts lo hi h hlo hplaced
  obtain ⟨xs, os, value, fs, rs, rfl, hx, hop, -, hrest⟩ := h
  obtain ⟨us, value', rfl⟩ := spellsRest_last hrest
  obtain ⟨mid, hxs, hplaced'⟩ := placed_append.1 hplaced
  obtain ⟨mid', hos, hlist⟩ := placed_append.1 hplaced'
  have hmid := hlo.trans hxs.le
  obtain ⟨hxne, hxspan⟩ := hasX xs _ _ hx hlo hxs
  obtain ⟨hone, hospan⟩ := spellsOperator_extent hop hmid hos
  rw [← List.append_assoc fs] at hlist hplaced ⊢
  refine ⟨by simp [hxne], ?_⟩
  have hunion := union_pair hlist (hmid.trans hos.le)
  change Span.union [x.span, span, Span.union [lparen, rparen]] = _
  rw [hxspan, hospan, hunion]
  exact union_three_extents hplaced hlo hxne hone (by simp)

/-- A signed expression's span is the extent of its tokens. -/
theorem unary_extent {x : Syntax.Expr} (span : Span) (op : Syntax.Sign)
    (hasX : HasExtent src x) :
    HasExtent src (.unary span op x) := by
  intro ts lo hi h hlo hplaced
  obtain ⟨kind, value, xs, rfl, -, hx⟩ := h
  have hstart : lo ≤ span.start := hplaced.1
  have hspan : span.start < span.stop := hplaced.2.1
  have hxs : Placed span.stop xs hi := hplaced.2.2
  obtain ⟨hxne, hxspan⟩ := hasX xs _ _ hx (by omega) hxs
  have hunion := @union_extents lo hi [⟨kind, span, value⟩] _ hplaced hlo (by simp) hxne
  rw [extent_singleton] at hunion
  refine ⟨by simp, ?_⟩
  change Span.union [span, x.span] = _
  rw [hxspan, hunion]
  rfl

/-- A parenthesised expression's span is the extent of its tokens, the parentheses included. -/
theorem paren_extent {x : Syntax.Expr} (lparen rparen : Span)
    (hasX : HasExtent src x) :
    HasExtent src (.paren lparen x rparen) := by
  intro ts lo hi h hlo hplaced
  obtain ⟨value, xs, value', rfl, hx⟩ := h
  have hstart : lo ≤ lparen.start := hplaced.1
  have hspan : lparen.start < lparen.stop := hplaced.2.1
  obtain ⟨mid, hxs, -⟩ : ∃ mid, Placed lparen.stop xs mid ∧ _ := placed_append.1 hplaced.2.2
  obtain ⟨hxne, hxspan⟩ := hasX xs _ _ hx (by omega) hxs
  have hunion := @union_three_extents lo hi [⟨.lparen, lparen, value⟩] _
    [⟨.rparen, rparen, value'⟩] hplaced hlo (by simp) hxne (by simp)
  rw [extent_singleton, extent_singleton] at hunion
  refine ⟨by simp, ?_⟩
  change Span.union [lparen, x.span, rparen] = _
  rw [hxspan, hunion]
  rfl

/-- A call's span is the extent of its tokens. -/
theorem call_extent (func : Syntax.Ident) (lparen : Span) (args : List Syntax.Expr) (rparen : Span) :
    HasExtent src (.call func lparen args rparen) := by
  intro ts lo hi h hlo hplaced
  obtain ⟨-, value, as, rfl, hargs⟩ := h
  obtain ⟨us, value', rfl⟩ := spellsArgs_last hargs
  have hunion := @union_brackets lo hi [⟨.identifier, func.span, func.name⟩] _ _ _ hplaced hlo (by simp)
  rw [extent_singleton] at hunion
  exact ⟨by simp, hunion⟩

/-- A member's span is the extent of its tokens. -/
theorem member_extent {x : Syntax.Expr} (dot : Span) (name : Syntax.Ident)
    (hasX : HasExtent src x) :
    HasExtent src (.member x dot name) := by
  intro ts lo hi h hlo hplaced
  obtain ⟨-, xs, value, kind, rfl, -, -, -, hx⟩ := h
  obtain ⟨mid, hxs, -⟩ := placed_append.1 hplaced
  obtain ⟨hxne, hxspan⟩ := hasX xs _ _ hx hlo hxs
  refine ⟨by simp, ?_⟩
  have hunion := @union_three_extents lo hi _ [⟨.dot, dot, value⟩] [⟨kind, name.span, name.name⟩]
    hplaced hlo hxne (by simp) (by simp)
  rw [extent_singleton, extent_singleton] at hunion
  change Span.union [x.span, dot, name.span] = _
  rw [hxspan, hunion]
  rfl

/-- An index's span is the extent of its tokens. -/
theorem index_extent {x : Syntax.Expr} (lbrack : Span) (index : Syntax.Expr) (rbrack : Span)
    (hasX : HasExtent src x) :
    HasExtent src (.index x lbrack index rbrack) := by
  intro ts lo hi h hlo hplaced
  obtain ⟨xs, hx, ⟨tok, rfl, -, hquoted⟩ | ⟨value, is, value', rfl, -⟩⟩ := h
  · obtain ⟨mid, hxs, ht₁, ht₂, -⟩ := placed_append.1 hplaced
    obtain ⟨hxne, hxspan⟩ := hasX xs _ _ hx hlo hxs
    obtain ⟨hx₁, hx₂, hx₃⟩ : Within lo (extent xs) mid := hxs.extent hxne
    have hmid := hlo.trans hxs.le
    rw [quotedIndex, Syntax.Expr.index.injEq] at hquoted
    obtain ⟨-, rfl, -, rfl⟩ := hquoted
    refine ⟨by simp, ?_⟩
    change Span.union [x.span, _, _] = _
    rw [hxspan, extent_append hxne (by simp)]
    refine union_three (Span.isValid_iff.2 ?_) (Span.isValid_iff.2 ?_) (Span.isValid_iff.2 ?_) ?_ ?_ ?_ ?_
    all_goals try simp only
    all_goals omega
  · obtain ⟨mid, hxs, -⟩ := placed_append.1 hplaced
    obtain ⟨hxne, hxspan⟩ := hasX xs _ _ hx hlo hxs
    refine ⟨by simp, ?_⟩
    change Span.union [x.span, lbrack, rbrack] = _
    rw [hxspan]
    exact union_brackets hplaced hlo hxne

/-- An expression's place is that of its tokens. -/
theorem spells_extent (x : Syntax.Expr) : HasExtent src x := by
  cases x with
  | ident id => exact ident_extent id
  | param p => exact param_extent p
  | basicLit lit => exact basicLit_extent lit
  | binary x span op y => exact binary_extent span op (spells_extent x) (spells_extent y)
  | inList x span negated lparen first rest rparen =>
    exact inList_extent span negated lparen first rest rparen (spells_extent x)
  | unary span op x => exact unary_extent span op (spells_extent x)
  | paren lparen x rparen => exact paren_extent lparen rparen (spells_extent x)
  | call func lparen args rparen => exact call_extent func lparen args rparen
  | member x dot name => exact member_extent dot name (spells_extent x)
  | index x lbrack index rbrack => exact index_extent lbrack index rbrack (spells_extent x)

end Expressions

section Unions

/-- The null span, or one that points into the text. -/
def Span.IsSound (s : Span) : Prop := s = .null ∨ s.isValid = true

/-- A span with one more. -/
def Span.join (u s : Span) : Span :=
  if !s.isValid then u else if !u.isValid then s else ⟨min u.start s.start, max u.stop s.stop⟩

/-- A union joins the spans one after another. -/
theorem union_eq_foldl (l : List Span) : Span.union l = l.foldl Span.join .null := rfl

/-- Nothing joined after a span leaves it. -/
theorem join_null (u : Span) : u.join .null = u := rfl

/-- A span joined after nothing is itself. -/
theorem null_join {s : Span} (h : s.IsSound) : Span.join .null s = s := by
  rcases h with rfl | h
  · rfl
  · simp only [Span.join, h]
    rfl

/-- Two valid spans join to the span from the earlier start to the later stop. -/
theorem join_valid {u s : Span} (hu : u.isValid = true) (hs : s.isValid = true) :
    u.join s = ⟨min u.start s.start, max u.stop s.stop⟩ := by simp [Span.join, hu, hs]

/-- Two valid spans join to a valid one. -/
theorem isValid_join {u s : Span} (hu : u.isValid = true) (hs : s.isValid = true) :
    (u.join s).isValid = true := by
  rw [join_valid hu hs]
  rw [Span.isValid_iff] at hu hs ⊢
  simp only
  omega

/-- Sound spans join to a sound one. -/
theorem Span.IsSound.join {u s : Span} (hu : u.IsSound) (hs : s.IsSound) : (u.join s).IsSound := by
  rcases hs with rfl | hs
  · exact hu
  · rcases hu with rfl | hu
    · rw [null_join (.inr hs)]
      exact .inr hs
    · exact .inr (isValid_join hu hs)

/-- Joining is associative over sound spans. -/
theorem join_assoc {u s t : Span} (hu : u.IsSound) (hs : s.IsSound) (ht : t.IsSound) :
    (u.join s).join t = u.join (s.join t) := by
  rcases ht with rfl | ht
  · rfl
  · rcases hs with rfl | hs
    · rw [join_null, null_join (.inr ht)]
    · rcases hu with rfl | hu
      · rw [null_join (.inr hs), null_join (.inr (isValid_join hs ht))]
      · rw [join_valid (isValid_join hu hs) ht, join_valid hu (isValid_join hs ht),
          join_valid hu hs, join_valid hs ht]
        simp only [min_assoc, max_assoc]

/-- A span joined first can be joined last. -/
theorem foldl_join {u s : Span} {l : List Span} (hu : u.IsSound) (hs : s.IsSound)
    (hl : ∀ t ∈ l, t.IsSound) : l.foldl Span.join (u.join s) = u.join (l.foldl Span.join s) := by
  induction l generalizing s with
  | nil => rfl
  | cons t l ih =>
    have ht := hl t List.mem_cons_self
    rw [List.foldl_cons, List.foldl_cons, join_assoc hu hs ht]
    exact ih (hs.join ht) fun t ht => hl t (List.mem_cons_of_mem _ ht)

/-- A union is that of the first and the rest. -/
theorem union_cons {s : Span} {l : List Span} (hs : s.IsSound) (hl : ∀ t ∈ l, t.IsSound) :
    Span.union (s :: l) = s.join (Span.union l) := by
  rw [union_eq_foldl, List.foldl_cons, null_join hs]
  exact foldl_join hs (.inl rfl) hl

/-- The union of one span is the span. -/
theorem union_single {s : Span} (hs : s.IsSound) : Span.union [s] = s := null_join hs

/-- The last two of four spans together. -/
theorem union_four {s t u v : Span} (hs : s.IsSound) (ht : t.IsSound) (hu : u.IsSound)
    (hv : v.IsSound) : Span.union [s, t, u, v] = Span.union [s, t, Span.union [u, v]] := by
  have huv : (Span.union [u, v]).IsSound := by
    rw [union_cons hu (by simpa using hv), union_single hv]
    exact hu.join hv
  rw [union_cons hs (by simp [ht, hu, hv]), union_cons ht (by simp [hu, hv]),
    union_cons hs (by simp [ht, huv]), union_cons ht (by simp [huv]), union_single huv]

end Unions

section Stages

variable {src : Source}

/-- A column's span is the extent of its tokens. -/
theorem spellsColumn_extent {naming : Bool} (e : Syntax.NamedExpr) (ts : List Token) (lo hi : ℤ)
    (h : spellsColumn src naming e ts) (hlo : 0 ≤ lo) (hplaced : Placed lo ts hi) :
    ts ≠ [] ∧ e.span = extent ts := by
  obtain ⟨name, x⟩ := e
  cases name with
  | none => exact spells_extent x ts lo hi h.2 hlo hplaced
  | some id =>
    obtain ⟨-, span, value, us, rfl, -, hx⟩ := h
    have hid : lo ≤ id.span.start := hplaced.1
    have hid' : id.span.start < id.span.stop := hplaced.2.1
    have hassign : id.span.stop ≤ span.start := hplaced.2.2.1
    have hassign' : span.start < span.stop := hplaced.2.2.2.1
    have hus : Placed span.stop us hi := hplaced.2.2.2.2
    obtain ⟨hne, hspan⟩ := spells_extent x us _ _ hx (by omega) hus
    obtain ⟨hu₁, hu₂, hu₃⟩ : Within span.stop (extent us) hi := hus.extent hne
    have hextent : ∀ t : Token, extent (t :: us) = ⟨t.span.start, (extent us).stop⟩ := fun t =>
      @extent_append [t] us (by simp) hne
    refine ⟨by simp, ?_⟩
    have hlast : extent (⟨.assign, span, value⟩ :: us) = ⟨span.start, (extent us).stop⟩ := hextent _
    have hall := @extent_append [⟨if id.quoted then .quotedIdentifier else .identifier, id.span, id.name⟩]
      (⟨.assign, span, value⟩ :: us) (by simp) (by simp)
    rw [hlast, extent_singleton, List.singleton_append] at hall
    rw [Syntax.NamedExpr.span, hspan, hall]
    refine union_two (Span.isValid_iff.2 ?_) (Span.isValid_iff.2 ?_) ?_ ?_
    all_goals omega

/-- The first and the last of what is written one after another are at the ends of its tokens. -/
theorem separated_extent {α : Type} {kind : TokenKind} {spell : α → List Token → Prop}
    {spanOf : α → Span} (hspell : ∀ a ts lo hi, spell a ts → 0 ≤ lo → Placed lo ts hi →
      ts ≠ [] ∧ spanOf a = extent ts) :
    ∀ (l : List α) (ts : List Token) (lo hi : ℤ), separated kind spell l ts → 0 ≤ lo →
      Placed lo ts hi → ts ≠ [] ∧ ∃ first last, l.head? = some first ∧ l.getLast? = some last ∧
        Within lo (spanOf last) hi ∧ (spanOf first).isValid = true ∧
        (spanOf first).start = (extent ts).start ∧ (spanOf last).stop = (extent ts).stop ∧
        (spanOf first).start ≤ (spanOf last).start ∧ (spanOf first).stop ≤ (spanOf last).stop
  | [], _, _, _, h, _, _ => h.elim
  | [a], ts, lo, hi, h, hlo, hplaced => by
    obtain ⟨hne, hspan⟩ := hspell a ts lo hi h hlo hplaced
    have hwithin : Within lo (extent ts) hi := hplaced.extent hne
    refine ⟨hne, a, a, rfl, rfl, ?_⟩
    rw [hspan]
    exact ⟨hwithin, hwithin.valid hlo, rfl, rfl, le_rfl, le_rfl⟩
  | a :: b :: rest, ts, lo, hi, h, hlo, hplaced => by
    obtain ⟨span, value, us, vs, rfl, ha, hrest⟩ := h
    obtain ⟨mid, hus, hvs⟩ := placed_append.1 hplaced
    have hsep : mid ≤ span.start := hvs.1
    have hsep' : span.start < span.stop := hvs.2.1
    obtain ⟨hne, hspan⟩ := hspell a us lo mid ha hlo hus
    have hmid := hlo.trans hus.le
    obtain ⟨hne', first, last, -, hlast, ⟨hl₁, hl₂, hl₃⟩, hfirst, -, hstop, -, -⟩ :=
      separated_extent hspell (b :: rest) vs span.stop hi hrest (by omega) hvs.2.2
    have hl₁' : span.stop ≤ (spanOf last).start := hl₁
    obtain ⟨hu₁, hu₂, hu₃⟩ : Within lo (extent us) mid := hus.extent hne
    have hvs' : extent (⟨kind, span, value⟩ :: vs) = ⟨span.start, (extent vs).stop⟩ :=
      @extent_append [_] vs (by simp) hne'
    refine ⟨by simp, a, last, rfl, by rw [List.getLast?_cons_cons, hlast], ⟨by omega, hl₂, hl₃⟩, ?_⟩
    rw [extent_append hne (by simp), hvs', hspan]
    exact ⟨Span.isValid_iff.2 (by omega), rfl, hstop, by omega, by omega⟩

/-- The spans of columns join to the extent of their tokens. -/
theorem spellsColumns_extent {naming : Bool} {columns : List Syntax.NamedExpr} {ts : List Token}
    {lo hi : ℤ} (h : spellsColumns src naming columns ts) (hlo : 0 ≤ lo) (hplaced : Placed lo ts hi) :
    ts ≠ [] ∧ Syntax.namedSpan columns = extent ts := by
  obtain ⟨hne, first, last, hfirst, hlast, hwithin, hvalid, hstart, hstop, hle, hle'⟩ :=
    separated_extent spellsColumn_extent columns ts lo hi h hlo hplaced
  refine ⟨hne, ?_⟩
  rw [Syntax.namedSpan, hfirst, hlast]
  simp only
  rw [union_two hvalid (hwithin.valid hlo) hle hle', hstart, hstop]

/-- A sort key's span is the extent of its tokens. -/
theorem spellsKey_extent (k : Syntax.SortKey) (ts : List Token) (lo hi : ℤ) (h : spellsKey src k ts)
    (hlo : 0 ≤ lo) (hplaced : Placed lo ts hi) : ts ≠ [] ∧ k.span = extent ts := by
  obtain ⟨us, ds, ns, span, rfl, ⟨-, hx⟩, hdirection, hnulls⟩ := h
  obtain ⟨mid, hus, hrest⟩ := placed_append.1 hplaced
  obtain ⟨hne, hspan⟩ := spells_extent k.x us lo mid hx hlo hus
  have hmid := hlo.trans hus.le
  refine ⟨by simp [hne], ?_⟩
  rw [Syntax.SortKey.span, hspan]
  -- The key ends with its last word, if it has one.
  have hend : ds ++ ns = [] ∧ k.endSpan = .null ∨
      ∃ ws t, ds ++ ns = ws ++ [t] ∧ k.endSpan = t.span := by
    generalize k.endSpan = stop at hnulls
    generalize k.asc = asc at hdirection
    generalize k.nulls = nulls at hnulls
    cases hnulls with
    | none =>
      cases hdirection with
      | none => exact .inl ⟨rfl, rfl⟩
      | asc => exact .inr ⟨[], _, rfl, rfl⟩
      | desc => exact .inr ⟨[], _, rfl, rfl⟩
    | first nulls which =>
      exact .inr ⟨ds ++ [⟨.identifier, nulls, "nulls"⟩], _, (List.append_cons _ _ [_]), rfl⟩
    | last nulls which =>
      exact .inr ⟨ds ++ [⟨.identifier, nulls, "nulls"⟩], _, (List.append_cons _ _ [_]), rfl⟩
  rcases hend with ⟨hnil, hnull⟩ | ⟨ws, t, hws, hlast⟩
  · have hwithin : Within lo (extent us) mid := hus.extent hne
    rw [hnil, hnull, List.append_nil, union_cons (.inr (hwithin.valid hlo)) (by simp [Span.IsSound])]
    rfl
  · rw [hws] at hrest ⊢
    obtain ⟨hu₁, hu₂, hu₃⟩ : Within lo (extent us) mid := hus.extent hne
    obtain ⟨ht₁, ht₂, ht₃⟩ := @Placed.mem _ _ _ hrest t (by simp)
    rw [extent_append hne (by simp), extent_append_stop, hlast]
    refine union_two (Span.isValid_iff.2 ?_) (Span.isValid_iff.2 ?_) ?_ ?_
    all_goals omega

/-- The pipe before a stage's tokens, if there is one. -/
def PipeBefore (pipe : Span) (lo : ℤ) : Prop :=
  pipe = .null ∨ 0 ≤ pipe.start ∧ pipe.start < pipe.stop ∧ pipe.stop ≤ lo

/-- The pipe before a stage has a sound span. -/
theorem PipeBefore.sound {pipe : Span} {lo : ℤ} (h : PipeBefore pipe lo) : pipe.IsSound := by
  rcases h with h | ⟨hstart, hspan, -⟩
  · exact .inl h
  · exact .inr (Span.isValid_iff.2 ⟨hstart, hspan.le⟩)

/-- A stage from its keyword to the last of what it has a place of. -/
theorem keyword_extent {pipe keyword last : Span} {word : String} {us : List Token} {lo hi : ℤ}
    (hpipe : pipe.IsSound) (hlo : 0 ≤ lo) (hplaced : Placed lo (⟨.identifier, keyword, word⟩ :: us) hi)
    (hus : us ≠ []) (hlast : Within keyword.stop last hi) (hstop : last.stop = (extent us).stop) :
    Span.union [pipe, keyword, last] = pipe.join (extent (⟨.identifier, keyword, word⟩ :: us)) := by
  have hkeyword : lo ≤ keyword.start := hplaced.1
  have hkeyword' : keyword.start < keyword.stop := hplaced.2.1
  obtain ⟨hl₁, hl₂, hl₃⟩ := hlast
  have hextent := @extent_append [⟨.identifier, keyword, word⟩] _ (by simp) hus
  have hunion : Span.union [keyword, last] = ⟨keyword.start, last.stop⟩ := by
    refine union_two (Span.isValid_iff.2 ?_) (Span.isValid_iff.2 ?_) ?_ ?_
    all_goals omega
  rw [union_cons hpipe, hunion, hstop]
  · rw [← List.singleton_append, hextent]
    rfl
  · intro s hs
    rcases List.mem_pair.1 hs with rfl | rfl
    · exact .inr (Span.isValid_iff.2 (by omega))
    · exact .inr (Span.isValid_iff.2 (by omega))

/-- A stage of a keyword and tokens of a place. -/
theorem keyword_extent_self {pipe keyword : Span} {word : String} {us : List Token} {lo hi : ℤ}
    (hpipe : pipe.IsSound) (hlo : 0 ≤ lo) (hplaced : Placed lo (⟨.identifier, keyword, word⟩ :: us) hi)
    (hus : us ≠ []) : Span.union [pipe, keyword, extent us] =
      pipe.join (extent (⟨.identifier, keyword, word⟩ :: us)) :=
  keyword_extent hpipe hlo hplaced hus (hplaced.2.2.extent hus) rfl

/-- How a summarize's functions have a place, if it has any. -/
theorem spellsAggregates_extent {aggregates : List Syntax.NamedExpr} {us : List Token} {lo hi : ℤ}
    (h : spellsAggregates src aggregates us) (hlo : 0 ≤ lo) (hplaced : Placed lo us hi) :
    us = [] ∧ Syntax.namedSpan aggregates = .null ∨
      us ≠ [] ∧ Syntax.namedSpan aggregates = extent us := by
  rcases h with ⟨rfl, rfl⟩ | ⟨haggregates, -⟩
  · exact .inl ⟨rfl, rfl⟩
  · exact .inr (spellsColumns_extent haggregates hlo hplaced)

/-- The columns a summarize groups by, if it has any, lie after the word `by`. -/
theorem spellsBy_extent {columnsBy : List Syntax.NamedExpr} {vs : List Token} {lo hi : ℤ}
    (h : spellsBy src columnsBy vs) (hlo : 0 ≤ lo) (hplaced : Placed lo vs hi) :
    vs = [] ∧ Syntax.namedSpan columnsBy = .null ∨
      vs ≠ [] ∧ Within lo (Syntax.namedSpan columnsBy) hi ∧
        (Syntax.namedSpan columnsBy).stop = (extent vs).stop := by
  rcases h with ⟨rfl, rfl⟩ | ⟨span, ws, rfl, hcolumns⟩
  · exact .inl ⟨rfl, rfl⟩
  · have hspan : lo ≤ span.start := hplaced.1
    have hspan' : span.start < span.stop := hplaced.2.1
    have hws : Placed span.stop ws hi := hplaced.2.2
    obtain ⟨hne, hby⟩ := spellsColumns_extent hcolumns (by omega) hws
    obtain ⟨hw₁, hw₂, hw₃⟩ : Within span.stop (extent ws) hi := hws.extent hne
    refine .inr ⟨by simp, ?_, ?_⟩
    · rw [hby]
      exact ⟨by omega, hw₂, hw₃⟩
    · rw [hby, ← List.singleton_append, extent_append (by simp) hne]

/-- A summarize stage's span is the extent of its tokens, with its pipe. -/
theorem summarize_extent {pipe keyword : Span} {aggregates columnsBy : List Syntax.NamedExpr}
    {us vs : List Token} {lo hi : ℤ} (hpipe : pipe.IsSound) (hlo : 0 ≤ lo)
    (hplaced : Placed lo (⟨.identifier, keyword, "summarize"⟩ :: (us ++ vs)) hi) (hne : us ++ vs ≠ [])
    (haggregates : spellsAggregates src aggregates us) (hby : spellsBy src columnsBy vs) :
    (Syntax.Stage.summarizeStage pipe keyword aggregates columnsBy).span =
      pipe.join (extent (⟨.identifier, keyword, "summarize"⟩ :: (us ++ vs))) := by
  have hkeyword : lo ≤ keyword.start := hplaced.1
  have hkeyword' : keyword.start < keyword.stop := hplaced.2.1
  obtain ⟨mid, hus, hvs⟩ : ∃ mid, Placed keyword.stop us mid ∧ Placed mid vs hi :=
    placed_append.1 hplaced.2.2
  have hmid := hus.le
  rw [Syntax.Stage.span]
  rcases spellsAggregates_extent haggregates (by omega) hus with ⟨rfl, hnull⟩ | ⟨hus', hspan⟩
  · rw [hnull]
    rcases spellsBy_extent hby (by omega) hvs with ⟨rfl, -⟩ | ⟨hvs', hwithin, hstop⟩
    · exact absurd rfl hne
    · obtain ⟨hw₁, hw₂, hw₃⟩ := hwithin
      exact keyword_extent hpipe hlo hplaced (by simpa using hvs') ⟨by omega, hw₂, hw₃⟩ hstop
  · rw [hspan]
    rcases spellsBy_extent hby (by omega) hvs with ⟨rfl, hnull⟩ | ⟨hvs', hwithin, hstop⟩
    · rw [hnull]
      rw [List.append_nil] at hplaced ⊢
      exact keyword_extent_self hpipe hlo hplaced hus'
    · obtain ⟨hu₁, hu₂, hu₃⟩ : Within keyword.stop (extent us) mid := hus.extent hus'
      obtain ⟨hw₁, hw₂, hw₃⟩ := hwithin
      have hjoin : Span.union [extent us, Syntax.namedSpan columnsBy] =
          ⟨(extent us).start, (Syntax.namedSpan columnsBy).stop⟩ := by
        refine union_two (Span.isValid_iff.2 ?_) (Span.isValid_iff.2 ?_) ?_ ?_
        all_goals omega
      have hsound : ∀ s : Span, 0 ≤ s.start → s.start < s.stop → s.IsSound := fun s hstart hspan =>
        .inr (Span.isValid_iff.2 ⟨hstart, hspan.le⟩)
      rw [union_four hpipe (hsound _ (by omega) hkeyword') (hsound _ (by omega) hu₂)
        (hsound _ (by omega) hw₂), hjoin]
      refine keyword_extent hpipe hlo hplaced hne ⟨hu₁, ?_, hw₃⟩ ?_
      · simp only
        omega
      · rw [extent_append hus' hvs', hstop]

/-- A sort stage's span is the extent of its tokens, with its pipe. -/
theorem sort_extent {pipe kspan bspan : Span} {word : String} {keys : List Syntax.SortKey}
    {us : List Token} {lo hi : ℤ} (hpipe : pipe.IsSound) (hlo : 0 ≤ lo)
    (hplaced : Placed lo (⟨.identifier, kspan, word⟩ :: ⟨.identifier, bspan, "by"⟩ :: us) hi)
    (hkeys : separated .comma (spellsKey src) keys us) :
    (Syntax.Stage.sortStage pipe (.union [kspan, bspan]) keys).span =
      pipe.join (extent (⟨.identifier, kspan, word⟩ :: ⟨.identifier, bspan, "by"⟩ :: us)) := by
  have hk : lo ≤ kspan.start := hplaced.1
  have hk' : kspan.start < kspan.stop := hplaced.2.1
  have hb : kspan.stop ≤ bspan.start := hplaced.2.2.1
  have hb' : bspan.start < bspan.stop := hplaced.2.2.2.1
  have hus : Placed bspan.stop us hi := hplaced.2.2.2.2
  obtain ⟨hne, -, last, -, hlast, ⟨hl₁, hl₂, -⟩, -, -, hstop, -, -⟩ :=
    separated_extent spellsKey_extent keys us _ _ hkeys (by omega) hus
  have hextent := @extent_append [⟨.identifier, kspan, word⟩, ⟨.identifier, bspan, "by"⟩] _
    (by simp) hne
  have hkeyword : Span.union [kspan, bspan] = ⟨kspan.start, bspan.stop⟩ := by
    refine union_two (Span.isValid_iff.2 ?_) (Span.isValid_iff.2 ?_) ?_ ?_
    all_goals omega
  have hboth : Span.join ⟨kspan.start, bspan.stop⟩ last.span = ⟨kspan.start, last.span.stop⟩ := by
    rw [join_valid (Span.isValid_iff.2 (by simp only; omega)) (Span.isValid_iff.2 (by omega))]
    simp only [Span.mk.injEq]
    omega
  have hsound : Span.IsSound ⟨kspan.start, bspan.stop⟩ := .inr (Span.isValid_iff.2 (by simp only; omega))
  have hsound' : last.span.IsSound := .inr (Span.isValid_iff.2 (by omega))
  have hpair : ∀ s t : Span, s.IsSound → t.IsSound → Span.union [s, t] = s.join t := by
    intro s t hs ht
    rw [union_cons hs (by simpa using ht), union_single ht]
  simp only [Syntax.Stage.span, hlast]
  rw [hkeyword, hpair pipe _ hpipe hsound, hpair _ _ (hpipe.join hsound) hsound',
    join_assoc hpipe hsound hsound', hboth, hstop]
  exact congrArg _ hextent.symm

/-- A stage's place is that of its tokens, and of its pipe. -/
theorem spellsStage_extent (s : Syntax.Stage) {ts : List Token} {lo hi : ℤ}
    (h : spellsStage src s ts) (hpipe : PipeBefore s.pipe lo) (hlo : 0 ≤ lo)
    (hplaced : Placed lo ts hi) : ts ≠ [] ∧ s.span = s.pipe.join (extent ts) := by
  have hsound := hpipe.sound
  have hrest : ∀ (keyword : Span) (word : String) (us : List Token),
      Placed lo (⟨.identifier, keyword, word⟩ :: us) hi → 0 ≤ keyword.stop ∧
        Placed keyword.stop us hi := by
    intro keyword word us hplaced
    have hstart : lo ≤ keyword.start := hplaced.1
    have hspan : keyword.start < keyword.stop := hplaced.2.1
    exact ⟨by omega, hplaced.2.2⟩
  cases s with
  | whereStage pipe keyword predicate =>
    obtain ⟨us, rfl, -, hx⟩ := h
    obtain ⟨hlo', hus⟩ := hrest _ _ _ hplaced
    obtain ⟨hne, hspan⟩ := spells_extent predicate us _ _ hx hlo' hus
    refine ⟨by simp, ?_⟩
    rw [Syntax.Stage.span, hspan]
    exact keyword_extent_self hsound hlo hplaced hne
  | searchTextStage pipe keyword term =>
    obtain ⟨-, rfl⟩ := h
    exact ⟨by simp, keyword_extent_self hsound hlo hplaced (by simp)⟩
  | searchParamStage pipe keyword term =>
    obtain rfl : ts = _ := h
    exact ⟨by simp, keyword_extent_self hsound hlo hplaced (by simp)⟩
  | projectStage pipe keyword columns =>
    obtain ⟨us, rfl, hcolumns⟩ := h
    obtain ⟨hlo', hus⟩ := hrest _ _ _ hplaced
    obtain ⟨hne, hspan⟩ := spellsColumns_extent hcolumns hlo' hus
    refine ⟨by simp, ?_⟩
    rw [Syntax.Stage.span, hspan]
    exact keyword_extent_self hsound hlo hplaced hne
  | extendStage pipe keyword columns =>
    obtain ⟨us, rfl, hcolumns⟩ := h
    obtain ⟨hlo', hus⟩ := hrest _ _ _ hplaced
    obtain ⟨hne, hspan⟩ := spellsColumns_extent hcolumns hlo' hus
    refine ⟨by simp, ?_⟩
    rw [Syntax.Stage.span, hspan]
    exact keyword_extent_self hsound hlo hplaced hne
  | summarizeStage pipe keyword aggregates columnsBy =>
    obtain ⟨us, vs, rfl, hne, haggregates, hby⟩ := h
    exact ⟨by simp, summarize_extent hsound hlo hplaced hne haggregates hby⟩
  | sortStage pipe keyword keys =>
    obtain ⟨word, kspan, bspan, us, -, rfl, rfl, hkeys⟩ := h
    exact ⟨by simp, sort_extent hsound hlo hplaced hkeys⟩
  | takeStage pipe keyword n =>
    obtain ⟨word, -, -, rfl⟩ := h
    exact ⟨by simp, keyword_extent_self hsound hlo hplaced (by simp)⟩
  | topStage pipe keyword n key =>
    obtain ⟨span, us, -, rfl, hkey⟩ := h
    have hkeyword : keyword.start < keyword.stop := hplaced.2.1
    have hn : keyword.stop ≤ n.span.start := hplaced.2.2.1
    have hn' : n.span.start < n.span.stop := hplaced.2.2.2.1
    have hby : n.span.stop ≤ span.start := hplaced.2.2.2.2.1
    have hby' : span.start < span.stop := hplaced.2.2.2.2.2.1
    have hus : Placed span.stop us hi := hplaced.2.2.2.2.2.2
    obtain ⟨hlo', -⟩ := hrest _ _ _ hplaced
    obtain ⟨hne, hspan⟩ := spellsKey_extent key us _ _ hkey (by omega) hus
    obtain ⟨hu₁, hu₂, hu₃⟩ : Within span.stop (extent us) hi := hus.extent hne
    refine ⟨by simp, ?_⟩
    rw [Syntax.Stage.span, hspan]
    refine keyword_extent hsound hlo hplaced (by simp) ⟨by omega, hu₂, hu₃⟩ ?_
    have hextent := @extent_append [⟨.number, n.span, n.value⟩, ⟨.identifier, span, "by"⟩] _
      (by simp) hne
    simp only [List.cons_append, List.nil_append] at hextent
    rw [hextent]
  | countStage pipe keyword =>
    obtain rfl : ts = _ := h
    have hkeyword : lo ≤ keyword.start := hplaced.1
    have hkeyword' : keyword.start < keyword.stop := hplaced.2.1
    have hkey : keyword.IsSound := .inr (Span.isValid_iff.2 (by omega))
    refine ⟨by simp, ?_⟩
    have hpair := union_cons hsound (l := [keyword]) (by simpa using hkey)
    rw [union_single hkey] at hpair
    exact hpair
  | distinctStage pipe keyword columns =>
    obtain ⟨us, rfl, hcolumns⟩ := h
    obtain ⟨hlo', hus⟩ := hrest _ _ _ hplaced
    obtain ⟨hne, hspan⟩ := spellsColumns_extent hcolumns hlo' hus
    refine ⟨by simp, ?_⟩
    rw [Syntax.Stage.span, hspan]
    exact keyword_extent_self hsound hlo hplaced hne

end Stages

end SolidTrace.LogQuery
