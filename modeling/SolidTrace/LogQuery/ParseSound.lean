import SolidTrace.LogQuery.Spelling

/-!
# What the parser reads

The tokens that the parser of expressions reads are how the tree it gives is written, and the tree is
well formed. The number of tokens is depth enough for it.
-/

namespace SolidTrace.LogQuery

section Steps

/-- What was read is handed to the next reader. -/
@[simp]
theorem andThen_ok {α β : Type} {x : α} {ts : List Token} {next : α → List Token → Parsed β} :
    andThen (.ok (x, ts)) next = next x ts := rfl

/-- Two readers succeed one after the other when each does. -/
theorem andThen_eq_ok {α β : Type} {r : Parsed α} {next : α → List Token → Parsed β}
    {p : β × List Token} :
    andThen r next = .ok p ↔ ∃ x ts, r = .ok (x, ts) ∧ next x ts = .ok p := by
  rcases r with e | ⟨x, ts⟩
  · simp [andThen]
  · constructor
    · intro h
      exact ⟨x, ts, rfl, h⟩
    · rintro ⟨_, _, hr, h⟩
      cases hr
      exact h

/-- An error is no success. -/
@[simp]
theorem parseError_ne_ok {α : Type} {span : Span} {message : String} {p : α × List Token} :
    parseError span message ≠ .ok p := nofun

/-- Too deep is no success. -/
@[simp]
theorem tooDeep_ne_ok {α : Type} {p : α × List Token} : tooDeep ≠ Except.ok p := nofun

/-- What every step keeps holds where the steps end. -/
theorem repeated_invariant {step : Syntax.Expr → List Token → Option (Parsed Syntax.Expr)}
    {I : Syntax.Expr → List Token → Prop}
    (hstep : ∀ x ts x' ts', I x ts → step x ts = some (.ok (x', ts')) → I x' ts') {n : ℕ}
    {x y : Syntax.Expr} {ts rest : List Token} (hx : I x ts)
    (h : repeated step n x ts = .ok (y, rest)) : I y rest ∧ step y rest = none := by
  induction n generalizing x ts with
  | zero =>
    unfold repeated at h
    split at h
    · cases h
      exact ⟨hx, ‹_›⟩
    · simp at h
    · simp at *
  | succ n ih =>
    unfold repeated at h
    split at h
    · cases h
      exact ⟨hx, ‹_›⟩
    · simp at *
    next r hr hn =>
      cases hn
      obtain ⟨x', ts', rfl, h⟩ := andThen_eq_ok.1 h
      exact ih (hstep x ts x' ts' hx hr) h

/-- A step that is taken is followed by the others. -/
theorem repeated_some {step : Syntax.Expr → List Token → Option (Parsed Syntax.Expr)} {k : ℕ}
    {x x' : Syntax.Expr} {ts ts' : List Token} (h : step x ts = some (.ok (x', ts'))) :
    repeated step (k + 1) x ts = repeated step k x' ts' := by
  conv => lhs; unfold repeated
  rw [h]
  rfl

/-- Where no step is taken the expression is as it is. -/
theorem repeated_none {step : Syntax.Expr → List Token → Option (Parsed Syntax.Expr)} {k : ℕ}
    {x : Syntax.Expr} {ts : List Token} (h : step x ts = none) :
    repeated step k x ts = .ok (x, ts) := by
  unfold repeated
  rw [h]

end Steps

section Operators

/-- An operator that is read is written so. -/
theorem binaryOperator_spells {ts after : List Token} {op : Operator} {span : Span}
    (h : binaryOperator ts = some (op, span, after)) :
    ∃ os, ts = os ++ after ∧ SpellsOperator op span os := by
  unfold binaryOperator at h
  split at h
  · simp at h
  next tok rest =>
    obtain ⟨kind, tspan, value⟩ := tok
    split at h
    next hkind hword =>
      simp only [Option.some.injEq, Prod.mk.injEq] at h
      obtain ⟨rfl, rfl, rfl⟩ := h
      cases hkind
      exact ⟨_, rfl, .word hword _⟩
    next next rest hkind hword =>
      obtain ⟨nkind, nspan, nvalue⟩ := next
      split at h
      next hregex =>
        simp only [Option.some.injEq, Prod.mk.injEq] at h
        obtain ⟨rfl, rfl, rfl⟩ := h
        obtain ⟨rfl, rfl, rfl⟩ := hregex
        cases hkind
        exact ⟨_, rfl, .matchesRegex _ _⟩
      · simp at h
    · simp at h
    next next rest hkind =>
      obtain ⟨nkind, nspan, nvalue⟩ := next
      split at h
      next hword =>
        split at h
        next htouch =>
          simp only [Option.some.injEq, Prod.mk.injEq] at h
          obtain ⟨rfl, rfl, rfl⟩ := h
          obtain ⟨rfl, htouch⟩ := htouch
          cases hkind
          exact ⟨_, rfl, .negated hword _ _ _ htouch⟩
        · simp at h
      · simp at h
    · simp at h
    next =>
      obtain ⟨op', hop, h⟩ := Option.map_eq_some_iff.1 h
      simp only [Prod.mk.injEq] at h
      obtain ⟨rfl, rfl, rfl⟩ := h
      exact ⟨_, rfl, .symbol hop _ _⟩

end Operators

section Sound

variable {src : Source} {expr : ℕ → List Token → Parsed Syntax.Expr} {n : ℕ}

/-- Every operator the tokens go on with binds less tightly than asked. -/
def StopsBelow (m : ℕ) (ts : List Token) : Prop :=
  ∀ op span after, binaryOperator ts = some (op, span, after) → precedence op < m

/-- What is parsed is read from the tokens before those left, and is well formed. -/
def ReadsExpr (src : Source) (m : ℕ) (ts : List Token) (x : Syntax.Expr) (rest : List Token) : Prop :=
  ∃ used, ts = used ++ rest ∧ spells src x used ∧ wellFormed x m

/-- A parser of expressions that reads what it gives, as far as it goes. -/
def Sound (src : Source) (expr : ℕ → List Token → Parsed Syntax.Expr) : Prop :=
  ∀ m ts x rest, expr m ts = .ok (x, rest) → ReadsExpr src m ts x rest ∧ StopsBelow m rest

/-- Whether the tokens go on with a dot that touches the end of a span. -/
def touchingDot (span : Span) : List Token → Prop
  | [] => False
  | dot :: _ => dot.kind = .dot ∧ dot.span.start = span.stop

/-- A dotted name that is read is spelled by what was read. -/
theorem dottedName_sound {name : String} {span : Span} {ts rest : List Token} {x : Syntax.Expr}
    (h : dottedName src name span ts = .ok (x, rest)) :
    ∃ parts whole all, ts = parts ++ rest ∧ x = .ident ⟨whole, all, false⟩ ∧
      SpellsParts src name span whole all parts ∧ ¬touchingDot all rest := by
  fun_induction dottedName src name span ts with
  | case1 name span =>
    cases h
    exact ⟨[], name, span, rfl, rfl, .none name span, id⟩
  | case2 => exact absurd h parseError_ne_ok
  | case3 name span dot hdot part ts hpart ih =>
    obtain ⟨parts, whole, all, hts, rfl, hparts, hstop⟩ := ih h
    refine ⟨dot :: part :: parts, whole, all, by rw [hts]; rfl, rfl, ?_, hstop⟩
    exact .part hdot.1 hdot.2 hpart.1 hpart.2 hparts
  | case4 => exact absurd h parseError_ne_ok
  | case5 name span dot ts hdot =>
    cases h
    exact ⟨[], name, span, rfl, rfl, .none name span, hdot⟩

/-- The elements that are read are spelled by what was read. -/
theorem elements_sound (hexpr : Sound src expr) {ts rest : List Token} {first : Syntax.Expr}
    {others : List Syntax.Expr} {rparen : Span}
    (h : elements src expr n ts = .ok ((first, others, rparen), rest)) :
    ∃ fs rs, ts = fs ++ (rs ++ rest) ∧ spells src first fs ∧ spellsRest src others rparen rs ∧
      wellFormed first 0 ∧ allWellFormed others := by
  induction n generalizing ts first others with
  | zero => simp [elements] at h
  | succ n ih =>
    unfold elements at h
    obtain ⟨x, ts₁, hx, hnext⟩ := andThen_eq_ok.1 h
    obtain ⟨⟨used, rfl, hused, hwf⟩, -⟩ := hexpr 0 _ _ _ hx
    split at hnext
    next span value ts₂ =>
      obtain ⟨⟨first', rest', rparen'⟩, ts₃, helements, hlast⟩ := andThen_eq_ok.1 hnext
      simp only [Except.ok.injEq, Prod.mk.injEq] at hlast
      obtain ⟨⟨rfl, rfl, rfl⟩, rfl⟩ := hlast
      obtain ⟨fs, rs, rfl, hfs, hrs, hwf', hall⟩ := ih helements
      refine ⟨used, ⟨.comma, span, value⟩ :: (fs ++ rs), by simp, hused, ?_, hwf, hwf', hall⟩
      exact ⟨span, value, fs, rs, rfl, hfs, hrs⟩
    next span value ts₂ =>
      simp only [Except.ok.injEq, Prod.mk.injEq] at hnext
      obtain ⟨⟨rfl, rfl, rfl⟩, rfl⟩ := hnext
      exact ⟨used, [⟨.rparen, _, value⟩], by simp, hused, ⟨value, rfl⟩, hwf, trivial⟩
    · simp at hnext

/-- An operand is read, and is one. No dot that touches it follows `true` or `false`. -/
def ReadsPrimary (src : Source) (ts : List Token) (x : Syntax.Expr) (rest : List Token) : Prop :=
  ReadsExpr src 0 ts x rest ∧ isPrimary x = true ∧
    (isIdentExpr x = false → isWord x = true → ¬touchingDot x.span rest)

/-- A word that is read is spelled by itself. -/
theorem wordExpr_sound {first : Token} {ts rest : List Token} {x : Syntax.Expr}
    (hfirst : first.kind = .identifier) (hdot : ¬touchingDot first.span ts)
    (h : wordExpr first ts = .ok (x, rest)) : ReadsPrimary src (first :: ts) x rest := by
  obtain ⟨kind, span, value⟩ := first
  cases hfirst
  unfold wordExpr at h
  split at h
  next hbool =>
    cases h
    exact ⟨⟨[⟨.identifier, span, value⟩], rfl, ⟨rfl, hbool⟩, trivial⟩, rfl, fun _ _ => hdot⟩
  next hbool =>
    split at h
    · simp at h
    next hnot =>
      cases h
      refine ⟨⟨[⟨.identifier, span, value⟩], rfl, ?_, trivial⟩, rfl, nofun⟩
      simp only [not_or] at hbool
      exact ⟨⟨.identifier, span, value⟩, [], rfl, rfl, .none _ _, fun _ => ⟨hbool.1, hbool.2, hnot⟩⟩

/-- A call that is read is spelled by what was read. -/
theorem callExpr_sound (hexpr : Sound src expr) {func : Token} {lparen : Span} {value : String}
    {ts rest : List Token} {x : Syntax.Expr} (hfunc : func.kind = .identifier)
    (h : callExpr src expr n func lparen ts = .ok (x, rest)) :
    ReadsPrimary src (func :: ⟨.lparen, lparen, value⟩ :: ts) x rest := by
  obtain ⟨kind, span, name⟩ := func
  cases hfunc
  unfold callExpr at h
  split at h
  next rparen text ts =>
    cases h
    exact ⟨⟨[⟨.identifier, span, name⟩, ⟨.lparen, lparen, value⟩, ⟨.rparen, rparen, text⟩], rfl,
      ⟨rfl, value, _, rfl, text, rfl⟩, trivial⟩, rfl, nofun⟩
  · obtain ⟨⟨first, others, rparen⟩, ts', helements, hlast⟩ := andThen_eq_ok.1 h
    cases hlast
    obtain ⟨fs, rs, rfl, hfs, hrs, hwf, hall⟩ := elements_sound hexpr helements
    refine ⟨⟨⟨.identifier, span, name⟩ :: ⟨.lparen, lparen, value⟩ :: (fs ++ rs), by simp, ?_, ?_⟩,
      rfl, nofun⟩
    · exact ⟨rfl, value, _, rfl, fs, rs, rfl, hfs, hrs⟩
    · exact ⟨hwf, hall⟩

/-- A name or a call that is read is spelled by what was read. -/
theorem identExpr_sound (hexpr : Sound src expr) {first : Token} {ts rest : List Token}
    {x : Syntax.Expr} (hfirst : first.kind = .identifier)
    (h : identExpr src expr n first ts = .ok (x, rest)) :
    ReadsPrimary src (first :: ts) x rest := by
  unfold identExpr at h
  split at h
  · exact wordExpr_sound hfirst id h
  next next ts =>
    split at h
    next hdot =>
      obtain ⟨parts, whole, all, hts, rfl, hparts, hstop⟩ := dottedName_sound h
      refine ⟨⟨first :: parts, by rw [hts]; rfl, ?_, trivial⟩, rfl, nofun⟩
      refine ⟨first, parts, rfl, hfirst, hparts, ?_⟩
      rintro rfl
      cases hparts
      rw [List.nil_append] at hts
      subst hts
      exact absurd hdot hstop
    next hdot =>
      split at h
      next hlparen =>
        obtain ⟨kind, span, value⟩ := next
        cases hlparen
        exact callExpr_sound hexpr hfirst h
      · exact wordExpr_sound hfirst hdot h

/-- An operand that is read is spelled by what was read. -/
theorem operand_sound (hexpr : Sound src expr) {ts rest : List Token} {x : Syntax.Expr}
    (h : operand src expr n ts = .ok (x, rest)) : ReadsPrimary src ts x rest := by
  unfold operand at h
  split at h
  · simp at h
  next tok ts =>
    obtain ⟨kind, span, value⟩ := tok
    split at h
    case h_7 hkind => exact identExpr_sound hexpr hkind h
    case h_8 hkind =>
      cases hkind
      obtain ⟨y, ts₁, hy, hnext⟩ := andThen_eq_ok.1 h
      obtain ⟨⟨used, rfl, hused, hwf⟩, -⟩ := hexpr 0 _ _ _ hy
      split at hnext
      next rparen text ts₂ =>
        cases hnext
        exact ⟨⟨⟨.lparen, span, value⟩ :: (used ++ [⟨.rparen, rparen, text⟩]), by simp,
          ⟨value, used, text, rfl, hused⟩, hwf⟩, rfl, nofun⟩
      · simp at hnext
    case h_9 => simp at h
    all_goals
      next hkind =>
        cases hkind
        cases h
        exact ⟨⟨[⟨_, span, value⟩], rfl, rfl, trivial⟩, rfl, nofun⟩

/-- A member that is read is spelled by its name. -/
theorem memberExpr_sound {x y : Syntax.Expr} {dot : Span} {ts rest : List Token}
    (h : memberExpr x dot ts = .ok (y, rest)) :
    ∃ kind span value, ts = ⟨kind, span, value⟩ :: rest ∧ isNamePart kind = true ∧
      span.start = dot.stop ∧ y = .member x dot ⟨value, span, false⟩ := by
  unfold memberExpr at h
  split at h
  · exact absurd h parseError_ne_ok
  next name ts =>
    split at h
    next hname =>
      cases h
      exact ⟨name.kind, name.span, name.value, rfl, hname.1, hname.2, rfl⟩
    · exact absurd h parseError_ne_ok

/-- An index that is read is spelled by what was read. -/
theorem indexExpr_sound (hexpr : Sound src expr) {x y : Syntax.Expr} {lbrack : Span}
    {ts rest : List Token} (h : indexExpr src expr x lbrack ts = .ok (y, rest)) :
    ∃ index is rbrack value, ts = is ++ ⟨.rbracket, rbrack, value⟩ :: rest ∧
      spells src index is ∧ wellFormed index 0 ∧ y = .index x lbrack index rbrack := by
  unfold indexExpr at h
  split at h
  · exact absurd h parseError_ne_ok
  · exact absurd h parseError_ne_ok
  · obtain ⟨index, ts₁, hindex, hnext⟩ := andThen_eq_ok.1 h
    obtain ⟨⟨used, hts, hused, hwf⟩, -⟩ := hexpr 0 _ _ _ hindex
    split at hnext
    next rbrack value ts₂ =>
      cases hnext
      exact ⟨index, used, rbrack, value, hts, hused, hwf, rfl⟩
    · simp at hnext

/-- What reaches into an operand that was read makes an operand that was read. -/
theorem accessor_sound (hexpr : Sound src expr) {all ts ts' : List Token} {x x' : Syntax.Expr}
    (hx : ReadsPrimary src all x ts) (h : accessor src expr x ts = some (.ok (x', ts'))) :
    ReadsPrimary src all x' ts' := by
  obtain ⟨⟨used, rfl, hused, hwf⟩, hprimary, hword⟩ := hx
  unfold accessor at h
  split at h
  · simp at h
  next tok ts =>
    obtain ⟨kind, span, value⟩ := tok
    split at h
    next hdot =>
      obtain ⟨rfl, hname, htouch⟩ := hdot
      obtain ⟨nkind, nspan, nvalue, rfl, hpart, htouch', rfl⟩ := memberExpr_sound (Option.some.inj h)
      refine ⟨⟨used ++ [⟨.dot, span, value⟩, ⟨nkind, nspan, nvalue⟩], by simp, ?_, ?_⟩, rfl, nofun⟩
      · exact ⟨rfl, used, value, nkind, rfl, hpart, htouch, htouch', hused⟩
      · refine ⟨hprimary, ?_, hwf⟩
        by_contra hw
        exact hword (by simpa using hname) (by simpa using hw) ⟨rfl, htouch⟩
    · split at h
      next hquoted =>
        simp only [Option.some.injEq, Except.ok.injEq, Prod.mk.injEq] at h
        obtain ⟨rfl, rfl⟩ := h
        refine ⟨⟨used ++ [⟨kind, span, value⟩], by simp, ?_, ?_⟩, rfl, nofun⟩
        · exact ⟨used, hused, .inl ⟨_, rfl, hquoted, rfl⟩⟩
        · exact ⟨hprimary, hwf, trivial⟩
      · split at h
        next hlbracket =>
          obtain ⟨index, is, rbrack, text, rfl, his, hwfi, rfl⟩ :=
            indexExpr_sound hexpr (Option.some.inj h)
          cases hlbracket
          refine ⟨⟨used ++ ⟨.lbracket, span, value⟩ :: (is ++ [⟨.rbracket, rbrack, text⟩]), by simp,
            ?_, ?_⟩, rfl, nofun⟩
          · exact ⟨used, hused, .inr ⟨value, is, text, rfl, his⟩⟩
          · exact ⟨hprimary, hwf, hwfi⟩
        · simp at h

/-- A primary expression that is read is spelled by what was read. -/
theorem primaryExpr_sound (hexpr : Sound src expr) {ts rest : List Token} {x : Syntax.Expr}
    (h : primaryExpr src expr n ts = .ok (x, rest)) : ReadsPrimary src ts x rest := by
  unfold primaryExpr at h
  obtain ⟨y, ts₁, hy, hrest⟩ := andThen_eq_ok.1 h
  exact (repeated_invariant (fun _ _ _ _ => accessor_sound hexpr) (operand_sound hexpr hy) hrest).1

/-- What an operand with or without a sign reads. -/
theorem unaryExpr_sound (hexpr : Sound src expr) {ts rest : List Token} {x : Syntax.Expr} (m : ℕ)
    (h : unaryExpr src expr n ts = .ok (x, rest)) :
    ReadsExpr src m ts x rest ∧ lastOperator x = none := by
  have hprimary : ∀ ts, primaryExpr src expr n ts = .ok (x, rest) →
      ReadsExpr src m ts x rest ∧ lastOperator x = none := by
    intro ts h
    obtain ⟨⟨used, hts, hused, hwf⟩, hprimary, -⟩ := primaryExpr_sound hexpr h
    refine ⟨⟨used, hts, hused, wellFormed_primary m x hprimary hwf⟩, ?_⟩
    cases x <;> simp [isPrimary] at hprimary <;> rfl
  unfold unaryExpr at h
  split at h
  · exact hprimary _ h
  next tok ts =>
    obtain ⟨kind, span, value⟩ := tok
    split at h
    next op hop =>
      obtain ⟨y, ts₁, hy, hrest⟩ := andThen_eq_ok.1 h
      cases hrest
      obtain ⟨⟨used, hts, hused, hwf⟩, hprimary, -⟩ := primaryExpr_sound hexpr hy
      refine ⟨⟨⟨kind, span, value⟩ :: used, by rw [hts]; rfl, ?_, ?_⟩, rfl⟩
      · exact ⟨kind, value, used, rfl, hop, hused⟩
      · exact ⟨hprimary, wellFormed_primary m y hprimary hwf⟩
    · exact hprimary _ h

/-- A list that is read is spelled by what was read. -/
theorem list_sound (hexpr : Sound src expr) {x y : Syntax.Expr} {span : Span} {negated : Bool}
    {ts rest : List Token} (h : list src expr n x span negated ts = .ok (y, rest)) :
    ∃ lparen value fs rs first others rparen,
      ts = ⟨.lparen, lparen, value⟩ :: (fs ++ (rs ++ rest)) ∧ spells src first fs ∧
      spellsRest src others rparen rs ∧ wellFormed first 0 ∧ allWellFormed others ∧
      y = .inList x span negated lparen first others rparen := by
  unfold list at h
  split at h
  next lparen value ts =>
    obtain ⟨⟨first, others, rparen⟩, ts₁, helements, hlast⟩ := andThen_eq_ok.1 h
    cases hlast
    obtain ⟨fs, rs, rfl, hfs, hrs, hwf, hall⟩ := elements_sound hexpr helements
    exact ⟨lparen, value, fs, rs, first, others, rparen, rfl, hfs, hrs, hwf, hall, rfl⟩
  · simp at h

/-- An expression that was read, up to an operator that can follow it. -/
def ReadsOperand (src : Source) (m : ℕ) (all : List Token) (x : Syntax.Expr) (ts : List Token) :
    Prop :=
  ReadsExpr src m all x ts ∧ ∀ op span after, binaryOperator ts = some (op, span, after) → canFollow x op

/-- An operation that is read is spelled by its left side and what was read. -/
theorem operation_sound (hexpr : Sound src expr) {m : ℕ} {all ts ts' : List Token}
    {x x' : Syntax.Expr} (hx : ReadsOperand src m all x ts)
    (h : operation src expr n m x ts = some (.ok (x', ts'))) : ReadsOperand src m all x' ts' := by
  obtain ⟨⟨used, rfl, hused, hwf⟩, hfollow⟩ := hx
  unfold operation at h
  split at h
  · simp at h
  next op span after hop =>
    obtain ⟨os, rfl, hos⟩ := binaryOperator_spells hop
    split at h
    · simp at h
    next hlt =>
      have hm := Nat.le_of_not_lt hlt
      split at h
      · simp at h
      · split at h
        next negated =>
          obtain ⟨lparen, value, fs, rs, first, others, rparen, rfl, hfs, hrs, hwff, hall, rfl⟩ :=
            list_sound hexpr (Option.some.inj h)
          refine ⟨⟨used ++ (os ++ ⟨.lparen, lparen, value⟩ :: (fs ++ rs)), by simp, ?_, ?_⟩, ?_⟩
          · exact ⟨used, os, value, fs, rs, rfl, hused, hos, hfs, hrs⟩
          · exact ⟨hm, hwf, hfollow _ _ _ hop, hwff, hall⟩
          · intro op' _ _ _
            simp [canFollow, lastOperator]
        next op =>
          obtain ⟨y, ts₁, hy, hlast⟩ := andThen_eq_ok.1 (Option.some.inj h)
          cases hlast
          obtain ⟨⟨ys, rfl, hys, hwfy⟩, hstops⟩ := hexpr _ _ _ _ hy
          refine ⟨⟨used ++ (os ++ ys), by simp, ?_, ?_⟩, ?_⟩
          · exact ⟨used, os, ys, rfl, hused, hos, hys⟩
          · exact ⟨hm, hwf, hfollow _ _ _ hop, hwfy⟩
          · intro op' span' after' hop'
            have hlt := hstops op' span' after' hop'
            simp only [canFollow, lastOperator, Option.mem_def, Option.some.injEq, forall_eq']
            omega

/-- The parser of expressions reads what it gives. -/
theorem exprOf_sound (src : Source) (n : ℕ) : Sound src (exprOf src n) := by
  induction n with
  | zero =>
    intro m ts x rest h
    simp [exprOf] at h
  | succ n ih =>
    intro m ts x rest h
    unfold exprOf at h
    obtain ⟨y, ts₁, hy, hrest⟩ := andThen_eq_ok.1 h
    obtain ⟨hreads, hlast⟩ := unaryExpr_sound ih m hy
    have hy' : ReadsOperand src m ts y ts₁ := by
      refine ⟨hreads, fun op _ _ _ => ?_⟩
      simp [canFollow, hlast]
    obtain ⟨⟨hread, -⟩, hstop⟩ :=
      repeated_invariant (fun _ _ _ _ => operation_sound ih) hy' hrest
    refine ⟨hread, fun op span after hop => ?_⟩
    unfold operation at hstop
    rw [hop] at hstop
    simp only at hstop
    split at hstop
    · assumption
    · split at hstop
      · simp at hstop
      · cases op <;> simp at hstop

end Sound

section Depth

variable {src : Source} {expr : ℕ → List Token → Parsed Syntax.Expr} {n : ℕ}

/-- Parsing did not run too deep, and leaves fewer tokens than some. -/
def Advances {α : Type} (k : ℕ) (r : Parsed α) : Prop :=
  r ≠ tooDeep ∧ ∀ x rest, r = .ok (x, rest) → rest.length < k

/-- A reader that succeeds advances when it leaves fewer tokens. -/
theorem Advances.ok {α : Type} {k : ℕ} {x : α} {rest : List Token} (h : rest.length < k) :
    Advances k (.ok (x, rest)) := by
  refine ⟨nofun, fun _ _ heq => ?_⟩
  cases heq
  exact h

/-- A reader that fails with a message advances. -/
theorem Advances.error {α : Type} {k : ℕ} {span : Span} {message : String} (h : message ≠ "") :
    Advances k (parseError (α := α) span message) := by
  refine ⟨fun heq => ?_, nofun⟩
  simp only [parseError, tooDeep, Except.error.injEq, Error.mk.injEq] at heq
  exact h heq.2

/-- A reader that advances to fewer tokens advances to fewer than more. -/
theorem Advances.mono {α : Type} {k l : ℕ} {r : Parsed α} (h : Advances k r) (hkl : k ≤ l) :
    Advances l r :=
  ⟨h.1, fun x rest heq => Nat.lt_of_lt_of_le (h.2 x rest heq) hkl⟩

/-- One reader after another advances when both do. -/
theorem Advances.andThen {α β : Type} {k l : ℕ} {r : Parsed α} {next : α → List Token → Parsed β}
    (h : Advances l r) (hnext : ∀ x rest, rest.length < l → Advances k (next x rest)) :
    Advances k (andThen r next) := by
  rcases r with e | ⟨x, rest⟩
  · refine ⟨fun heq => h.1 ?_, nofun⟩
    cases heq
    rfl
  · exact hnext x rest (h.2 x rest rfl)

/-- A parser of expressions that has depth enough for fewer tokens than some. -/
def Adequate (expr : ℕ → List Token → Parsed Syntax.Expr) (n : ℕ) : Prop :=
  ∀ m ts, ts.length < n → Advances ts.length (expr m ts)

/-- A step that advances does so however often it is repeated, and never runs out. -/
theorem repeated_advances {step : Syntax.Expr → List Token → Option (Parsed Syntax.Expr)} {l : ℕ}
    (hnil : ∀ x, step x [] = none)
    (hstep : ∀ x ts r, ts.length < l → step x ts = some r → Advances ts.length r) {k : ℕ}
    {x : Syntax.Expr} {ts : List Token} (hts : ts.length < l) (hk : ts.length ≤ k) :
    Advances l (repeated step k x ts) := by
  induction k generalizing x ts with
  | zero =>
    obtain rfl : ts = [] := List.length_eq_zero_iff.1 (by omega)
    rw [repeated_none (hnil x)]
    exact .ok hts
  | succ k ih =>
    cases hs : step x ts with
    | none =>
      rw [repeated_none hs]
      exact .ok hts
    | some r =>
      unfold repeated
      rw [hs]
      refine .andThen (hstep x ts r hts hs) fun x' rest hrest => ?_
      exact ih (by omega) (by omega)

/-- The elements of a list advance. -/
theorem elements_advances (hexpr : Adequate expr n) {k : ℕ} {ts : List Token}
    (hts : ts.length < n) (hk : ts.length < k) : Advances ts.length (elements src expr k ts) := by
  induction k generalizing ts with
  | zero => omega
  | succ k ih =>
    unfold elements
    refine .andThen (hexpr 0 ts hts) fun x rest hrest => ?_
    split
    next span value ts₁ =>
      rw [List.length_cons] at hrest
      exact .andThen (ih (by omega) (by omega)) fun _ _ h => .ok (by omega)
    next span value ts₁ =>
      rw [List.length_cons] at hrest
      exact .ok (by omega)
    · exact .error (by simp)

/-- A dotted name advances. -/
theorem dottedName_advances {name : String} {span : Span} {ts : List Token} :
    Advances (ts.length + 1) (dottedName src name span ts) := by
  fun_induction dottedName src name span ts with
  | case1 => exact .ok (by simp)
  | case2 => exact .error (by simp)
  | case3 name span dot hdot part ts hpart ih => exact ih.mono (by simp)
  | case4 => exact .error (by simp)
  | case5 => exact .ok (by simp)

/-- A word advances. -/
theorem wordExpr_advances {first : Token} {ts : List Token} :
    Advances (ts.length + 1) (wordExpr first ts) := by
  unfold wordExpr
  split
  · exact .ok (by simp)
  · split
    · exact .error (by decide)
    · exact .ok (by simp)

/-- A name or a call advances. -/
theorem identExpr_advances (hexpr : Adequate expr n) {first : Token} {ts : List Token}
    (hts : ts.length < n) : Advances (ts.length + 1) (identExpr src expr n first ts) := by
  unfold identExpr
  split
  · exact wordExpr_advances
  next next ts =>
    rw [List.length_cons] at hts
    split
    · exact dottedName_advances
    · split
      · unfold callExpr
        split
        · exact .ok (by simp only [List.length_cons]; omega)
        · refine .andThen (elements_advances hexpr (by omega) (by omega)) fun _ _ h => .ok ?_
          simp only [List.length_cons]
          omega
      · exact wordExpr_advances

/-- An operand advances. -/
theorem operand_advances (hexpr : Adequate expr n) {ts : List Token} (hts : ts.length ≤ n) :
    Advances ts.length (operand src expr n ts) := by
  unfold operand
  split
  · exact .error (by decide)
  next tok ts =>
    rw [List.length_cons] at hts ⊢
    split
    case h_7 => exact identExpr_advances hexpr (by omega)
    case h_8 =>
      refine .andThen (hexpr 0 ts (by omega)) fun x rest hrest => ?_
      split
      · rw [List.length_cons] at hrest
        exact .ok (by omega)
      · exact .error (by simp)
    case h_9 => exact .error (by simp)
    all_goals exact .ok (by simp)

/-- An accessor advances. -/
theorem accessor_advances (hexpr : Adequate expr n) {x : Syntax.Expr} {ts : List Token}
    {r : Parsed Syntax.Expr} (hts : ts.length ≤ n) (h : accessor src expr x ts = some r) :
    Advances ts.length r := by
  unfold accessor at h
  split at h
  · simp at h
  next tok ts =>
    rw [List.length_cons] at hts ⊢
    split at h
    · cases h
      unfold memberExpr
      split
      · exact .error (by decide)
      · split
        · exact .ok (by simp only [List.length_cons]; omega)
        · exact .error (by decide)
    · split at h
      · cases h
        exact .ok (by simp)
      · split at h
        · cases h
          unfold indexExpr
          split
          · exact .error (by decide)
          · exact .error (by decide)
          · refine .andThen (hexpr 0 ts (by omega)) fun x rest hrest => ?_
            split
            · rw [List.length_cons] at hrest
              exact .ok (by omega)
            · exact .error (by simp)
        · simp at h

/-- A primary expression advances. -/
theorem primaryExpr_advances (hexpr : Adequate expr n) {ts : List Token} (hts : ts.length ≤ n) :
    Advances ts.length (primaryExpr src expr n ts) := by
  unfold primaryExpr
  refine .andThen (operand_advances hexpr hts) fun x rest hrest => ?_
  exact repeated_advances (fun _ => rfl)
    (fun _ _ _ hlt h => accessor_advances hexpr (by omega) h) hrest (by omega)

/-- A signed expression advances. -/
theorem unaryExpr_advances (hexpr : Adequate expr n) {ts : List Token} (hts : ts.length ≤ n) :
    Advances ts.length (unaryExpr src expr n ts) := by
  unfold unaryExpr
  split
  · exact primaryExpr_advances hexpr hts
  next tok ts =>
    split
    · rw [List.length_cons] at hts ⊢
      exact .andThen (primaryExpr_advances hexpr (by omega)) fun _ _ h => .ok (by omega)
    · exact primaryExpr_advances hexpr hts

/-- An operation advances. -/
theorem operation_advances (hexpr : Adequate expr n) {m : ℕ} {x : Syntax.Expr} {ts : List Token}
    {r : Parsed Syntax.Expr} (hts : ts.length ≤ n)
    (h : operation src expr n m x ts = some r) : Advances ts.length r := by
  unfold operation at h
  split at h
  · simp at h
  next op span after hop =>
    have hafter : after.length < ts.length := by
      obtain ⟨os, rfl, hos⟩ := binaryOperator_spells hop
      have hlen : 0 < os.length := by cases hos <;> simp
      rw [List.length_append]
      omega
    split at h
    · simp at h
    · split at h
      · cases h
        exact .error (by simp)
      · split at h
        · cases h
          unfold list
          split
          · rw [List.length_cons] at hafter
            exact .andThen (elements_advances hexpr (by omega) (by omega)) fun _ _ h => .ok (by omega)
          · exact .error (by simp)
        · cases h
          exact .andThen (hexpr _ after (by omega)) fun _ _ h => .ok (by omega)

/-- The number of tokens is depth enough. -/
theorem exprOf_adequate (src : Source) (n : ℕ) : Adequate (exprOf src n) n := by
  induction n with
  | zero =>
    intro m ts hts
    omega
  | succ n ih =>
    intro m ts hts
    unfold exprOf
    refine .andThen (unaryExpr_advances ih (by omega)) fun x rest hrest => ?_
    exact repeated_advances (fun _ => rfl)
      (fun _ _ _ hlt h => operation_advances ih (by omega) h) hrest (by omega)

end Depth

end SolidTrace.LogQuery
