import SolidTrace.LogQuery.Quotes
import SolidTrace.LogQuery.Stages

/-!
# The Query of a Field's values

The Query that Console writes for the values a select lists, and the tree that is parsed of it whatever
the Field and the Project are called: each piece of its text is read as a token of its own.
-/

namespace SolidTrace.LogQuery

open Scanner

section Pieces

/-- A token of a text that a program writes. A name is written in brackets. -/
inductive Piece where
  | word (value : String)
  | digits (value : String)
  | pipe
  | lparen
  | rparen
  | name (value : String)

namespace Piece

def written : Piece → String
  | .word value => value
  | .digits value => value
  | .pipe => "|"
  | .lparen => "("
  | .rparen => ")"
  | .name value => ChartRuns.bracketed value

/-- What the piece is read as. -/
def read : Piece → TokenKind × String
  | .word value => (.identifier, value)
  | .digits value => (.number, value)
  | .pipe => (.pipe, "")
  | .lparen => (.lparen, "")
  | .rparen => (.rparen, "")
  | .name value => (.quotedIdentifier, value)

def isSymbol : Piece → Bool
  | .pipe => true
  | .lparen => true
  | .rparen => true
  | _ => false

/-- Whether a piece is a token whatever comes after it. -/
def closes : Piece → Bool
  | .word _ => false
  | .digits _ => false
  | _ => true

/-- Whether a piece is one token by itself. -/
def isOne : Piece → Bool
  | .word value => value ∉ ["and", "or", "datetime"] && startsWord value.toList
  | .digits value => !value.toList.isEmpty && value.toList.all isDigit
  | _ => true
where
  isPart (c : Char) : Bool := c.toNat < 128 && (c.isAlphanum || c = '_')
  startsWord : List Char → Bool
    | [] => false
    | c :: rest => isPart c && !c.isDigit && rest.all isPart

end Piece

/-- Pieces of a text, each with whether a space comes before it. -/
abbrev Pieces := List (Bool × Piece)

namespace Pieces

def written : Pieces → Text
  | [] => []
  | (spaced, p) :: rest => runes (if spaced then " " else "") ++ (runes p.written ++ written rest)

/-- A word or a number ends at a space or a symbol. -/
def apart : Pieces → Bool
  | [] => true
  | (_, p) :: rest =>
    p.isOne && (p.closes || (rest.head?.map fun next => next.1 || next.2.isSymbol).getD true) && apart rest

end Pieces

end Pieces

section Reading

variable {abc : Alphabet} {rest : Text}

/-- A text that starts with none of a word's or a number's characters. -/
def CutOff (rest : Text) : Prop := ∀ r ∈ rest.head?, r ∈ [Rune.char ' ', .char '|', .char '(', .char ')']

/-- What is cut off does not go on with a name. -/
theorem CutOff.not_identPart (h : CutOff rest) : ∀ r ∈ rest.head?, isIdentPart abc r.value = false := by
  have hascii : ∀ c ∈ [' ', '|', '(', ')'], isIdentPart abc c = false := by
    intro c hc
    have hlow : ∀ c ∈ [' ', '|', '(', ')'], c.toNat < 128 := by simp
    obtain ⟨hletter, hdigit⟩ := abc.ascii c (hlow c hc)
    have hno : ∀ c ∈ [' ', '|', '(', ')'],
        c.isAlpha = false ∧ c.isDigit = false ∧ c ≠ '_' ∧ c ≠ '$' := by simp
    obtain ⟨halpha, hnum, hunder, hdollar⟩ := hno c hc
    simp [isIdentPart, isIdentStart, hletter, hdigit, halpha, hnum, hunder, hdollar]
  intro r hr
  have hmem := h r hr
  simp only [List.mem_cons, List.not_mem_nil, or_false] at hmem
  rcases hmem with rfl | rfl | rfl | rfl <;> exact hascii _ (by decide)

/-- Taking and dropping what a part of a text is made of, up to what it is not. -/
theorem takeWhile_append_cutOff {α : Type} {p : α → Bool} {w rest : List α} (hw : ∀ a ∈ w, p a = true)
    (hrest : ∀ a ∈ rest.head?, p a = false) :
    (w ++ rest).takeWhile p = w ∧ (w ++ rest).dropWhile p = rest := by
  rw [List.takeWhile_append_of_pos hw, List.dropWhile_append_of_pos hw]
  cases rest with
  | nil => simp
  | cons a rest =>
    have ha := hrest a rfl
    simp [ha]

/-- A part of a plain name is one of a name. -/
theorem isIdentPart_of_isPart {c : Char} (h : Piece.isOne.isPart c = true) : isIdentPart abc c = true := by
  simp only [Piece.isOne.isPart, Bool.and_eq_true, decide_eq_true_eq] at h
  obtain ⟨hletter, hdigit⟩ := abc.ascii c h.1
  have hkind : (c.isAlpha = true ∨ c.isDigit = true) ∨ c = '_' := by
    simpa [Char.isAlphanum] using h.2
  rcases hkind with (halpha | hnum) | rfl
  · simp [isIdentPart, isIdentStart, hletter, halpha]
  · simp [isIdentPart, hdigit, hnum]
  · simp [isIdentPart, isIdentStart]

/-- A part of a plain name that is no digit can start a name. -/
theorem isIdentStart_of_isPart {c : Char} (h : Piece.isOne.isPart c = true) (hc : c.isDigit = false) :
    isIdentStart abc c = true := by
  simp only [Piece.isOne.isPart, Bool.and_eq_true, decide_eq_true_eq] at h
  obtain ⟨hletter, -⟩ := abc.ascii c h.1
  have hkind : c.isAlpha = true ∨ c = '_' := by
    simpa [Char.isAlphanum, hc] using h.2
  rcases hkind with halpha | rfl
  · simp [isIdentStart, hletter, halpha]
  · simp [isIdentStart]

/-- A word is one token up to where it is cut off. -/
theorem isToken_word {value : String} (hone : (Piece.word value).isOne = true) (hrest : CutOff rest) :
    IsToken abc .identifier value rest (runes value) := by
  simp only [Piece.isOne, Bool.and_eq_true, decide_eq_true_eq] at hone
  obtain ⟨hno, hword⟩ := hone
  cases hchars : value.toList with
  | nil =>
    rw [hchars] at hword
    cases hword
  | cons c chars =>
    rw [hchars] at hword
    simp only [Piece.isOne.startsWord, Bool.and_eq_true, Bool.not_eq_true', List.all_eq_true] at hword
    obtain ⟨⟨hc, hdigit⟩, hpart⟩ := hword
    have hparts : ∀ r ∈ runes value, isIdentPart abc r.value = true := by
      intro r hr
      obtain ⟨d, hd, rfl⟩ := List.mem_map.1 hr
      rw [hchars] at hd
      rcases List.mem_cons.1 hd with rfl | hd
      · exact isIdentPart_of_isPart hc
      · exact isIdentPart_of_isPart (hpart d hd)
    have hstops : ∀ r ∈ rest.head?, isIdentPart abc r.value = false := hrest.not_identPart
    obtain ⟨htake, hdrop⟩ := takeWhile_append_cutOff hparts hstops
    have hrunes : runes value = .char c :: chars.map .char := by rw [runes, hchars, List.map_cons]
    have hread : identifier abc (runes value ++ rest) = ⟨.identifier, value, rest⟩ := by
      simp only [List.mem_cons, List.not_mem_nil, or_false, not_or] at hno
      rw [identifier]
      simp only [htake, hdrop, string_runes, if_neg hno.1, if_neg hno.2.1, if_neg hno.2.2]
    have hstart : isIdentStart abc (Rune.char c).value = true := isIdentStart_of_isPart hc hdigit
    have hdollar : c ≠ '$' := by
      rintro rfl
      exact absurd hc (by decide)
    have hslash : c ≠ '/' := by
      rintro rfl
      exact absurd hc (by decide)
    rw [hrunes] at hread ⊢
    have hident : isIdentPart abc c = true := isIdentPart_of_isPart hc
    refine ⟨isSpace_of_isIdentPart hident, ?_, ?_, nofun⟩
    · simp [afterPrefix_cons, Rune.value, hslash]
    · rw [token, if_neg (by simpa [Rune.value] using hdollar), if_pos hstart]
      exact hread

/-- A digit is of ASCII and none of the other characters. -/
theorem of_isDigit {c : Char} (h : isDigit c = true) :
    c.toNat < 128 ∧ c.isAlpha = false ∧ c ≠ '$' ∧ c ≠ '/' ∧ c ≠ '_' := by
  simp only [isDigit, Bool.and_eq_true, decide_eq_true_eq] at h
  have hlow : 48 ≤ c.toNat := h.1
  have hhigh : c.toNat ≤ 57 := h.2
  have halpha : c.isAlpha = false := by
    have hupper : decide (c.val ≥ 'A'.val ∧ c.val ≤ 'Z'.val) = false := by
      have hval : ¬ 65 ≤ c.toNat := by omega
      simp [UInt32.le_iff_toNat_le, hval]
    have hlower : (decide (c.val ≥ 'a'.val) && decide (c.val ≤ 'z'.val)) = false := by
      have hval : ¬ 97 ≤ c.toNat := by omega
      simp [UInt32.le_iff_toNat_le, hval]
    exact (congrArg₂ (· || ·) hupper hlower).trans rfl
  refine ⟨by omega, halpha, ?_, ?_, ?_⟩ <;> rintro rfl <;> revert hlow hhigh <;> decide

/-- A number is one token up to where it is cut off. -/
theorem isToken_digits {value : String} (hone : (Piece.digits value).isOne = true) (hrest : CutOff rest) :
    IsToken abc .number value rest (runes value) := by
  simp only [Piece.isOne, Bool.and_eq_true, Bool.not_eq_true', List.isEmpty_eq_false_iff, List.all_eq_true]
    at hone
  obtain ⟨hne, hdigits⟩ := hone
  obtain ⟨c, chars, hchars⟩ := List.exists_cons_of_ne_nil hne
  have hparts : ∀ r ∈ runes value, isDigit r.value = true := by
    intro r hr
    obtain ⟨d, hd, rfl⟩ := List.mem_map.1 hr
    exact hdigits d hd
  have hplain : exponent (fraction rest) = rest := by
    cases rest with
    | nil => rfl
    | cons r rest =>
      have hmem := hrest r rfl
      simp only [List.mem_cons, List.not_mem_nil, or_false] at hmem
      rcases hmem with rfl | rfl | rfl | rfl <;> cases rest <;> rfl
  have hstop : ∀ r ∈ rest.head?, isDigit r.value = false := by
    intro r hr
    have hnone : ∀ r ∈ [Rune.char ' ', .char '|', .char '(', .char ')'], isDigit r.value = false := by decide
    exact hnone r (hrest r hr)
  have hstops : ∀ r ∈ rest.head?, isIdentPart abc r.value = false := hrest.not_identPart
  have hunit := takeWhile_append_cutOff (List.forall_mem_nil _) hstops
  rw [List.nil_append] at hunit
  have hread : number abc (runes value ++ rest) = ⟨.number, value, rest⟩ := by
    rw [number, digits, (takeWhile_append_cutOff hparts hstop).2, hplain]
    simp only [hunit.1, hunit.2, before_append, string_runes, List.isEmpty_nil, if_true]
  have hc : isDigit c = true := hdigits c (by rw [hchars]; exact List.mem_cons_self)
  have hrunes : runes value = .char c :: chars.map .char := by rw [runes, hchars, List.map_cons]
  obtain ⟨hascii, halpha, hdollar, hslash, hunder⟩ := of_isDigit hc
  rw [hrunes] at hread ⊢
  refine ⟨isSpace_of_isDigit hc, ?_, ?_, by simp⟩
  · simp [afterPrefix_cons, Rune.value, hslash]
  · have hstart : isIdentStart abc (Rune.char c).value = false := by
      simp [isIdentStart, Rune.value, (abc.ascii c hascii).1, halpha, hunder]
    rw [token, if_neg (by simpa [Rune.value] using hdollar), if_neg (by simp [hstart]),
      if_pos (show isDigit (Rune.char c).value = true from hc)]
    exact hread

/-- A pipe or a parenthesis is one token whatever comes after it. -/
theorem isToken_symbol {p : Piece} (hp : p.isSymbol = true) (rest : Text) :
    IsToken abc p.read.1 p.read.2 rest (runes p.written) := by
  have hread : ∀ c ∈ ['|', '(', ')'], ∀ kind, (∀ rest, symbol (.char c :: rest) = some ⟨kind, "", rest⟩) →
      token abc (.char c) rest = ⟨kind, "", rest⟩ := by
    intro c hc kind hsymbol
    have hno : ∀ c ∈ ['|', '(', ')'], c.toNat < 128 ∧ c.isAlpha = false ∧ c ≠ '_' ∧ c ≠ '$' ∧
        isDigit c = false ∧ isQuote c = false ∧ c ≠ '[' := by simp [isDigit, isQuote]
    obtain ⟨hascii, halpha, hunder, hdollar, hdigit, hquote, hbracket⟩ := hno c hc
    simp [token, Rune.value, isIdentStart, (abc.ascii c hascii).1, halpha, hunder, hdollar, hdigit, hquote,
      hbracket, hsymbol]
  cases p with
  | pipe => exact ⟨by decide, rfl, hread '|' (by decide) _ fun _ => rfl, by simp [Piece.read]⟩
  | lparen => exact ⟨by decide, rfl, hread '(' (by decide) _ fun _ => rfl, by simp [Piece.read]⟩
  | rparen => exact ⟨by decide, rfl, hread ')' (by decide) _ fun _ => rfl, by simp [Piece.read]⟩
  | word value => cases hp
  | digits value => cases hp
  | name value => cases hp

/-- A text that is put between brackets is written in single quotes. -/
theorem bracketed_written (value : String) : ∃ body : String,
    ChartRuns.bracketed value = "['" ++ body ++ "']" ∧ WrittenIn '\'' value.toList body.toList :=
  ⟨_, rfl, writtenIn_replaceAll (.inr rfl) value⟩

/-- A piece is one token, a word or a number where it is cut off. -/
theorem Piece.isToken {p : Piece} {w : Text} (hw : runes p.written = w) (hone : p.isOne = true)
    (hrest : p.closes = true ∨ CutOff rest) : IsToken abc p.read.1 p.read.2 rest w := by
  cases p with
  | word value => exact hw ▸ isToken_word hone (hrest.resolve_left nofun)
  | digits value => exact hw ▸ isToken_digits hone (hrest.resolve_left nofun)
  | pipe => exact hw ▸ isToken_symbol rfl rest
  | lparen => exact hw ▸ isToken_symbol rfl rest
  | rparen => exact hw ▸ isToken_symbol rfl rest
  | name value =>
    obtain ⟨body, hwritten, hbody⟩ := bracketed_written value
    have hw' : w = runes ("['" ++ body ++ "']") := by rw [← hw, Piece.written, hwritten]
    rw [hw']
    exact isToken_quotedIdentifier hbody rest

/-- A word or a number is cut off by a space or a symbol. -/
theorem Pieces.cutOff {ps : Pieces}
    (h : (ps.head?.map fun next => next.1 || next.2.isSymbol).getD true = true) : CutOff ps.written := by
  have hcons : ∀ c ∈ [' ', '|', '(', ')'], ∀ text, CutOff (.char c :: text) := by
    intro c hc text r hr
    obtain rfl : Rune.char c = r := Option.some_inj.1 hr
    exact List.mem_map_of_mem (f := Rune.char) hc
  cases ps with
  | nil => exact nofun
  | cons next rest =>
    obtain ⟨spaced, p⟩ := next
    cases spaced with
    | true => exact hcons ' ' (by decide) (runes p.written ++ written rest)
    | false =>
      have hp : p.isSymbol = true := by simpa using h
      cases p with
      | pipe => exact hcons '|' (by decide) (written rest)
      | lparen => exact hcons '(' (by decide) (written rest)
      | rparen => exact hcons ')' (by decide) (written rest)
      | word value => cases hp
      | digits value => cases hp
      | name value => cases hp

/-- What pieces are written as is read as their tokens. -/
theorem Pieces.tokensOf {ps : Pieces} (h : ps.apart = true) (start : ℕ) :
    ∃ ts, TokensOf abc start ps.written ts ∧
      ts.map (fun tok => (tok.kind, tok.value)) = ps.map fun p => p.2.read := by
  induction ps generalizing start with
  | nil => exact ⟨[], ⟨[], [], rfl, rfl, .nil⟩, rfl⟩
  | cons next rest ih =>
    obtain ⟨spaced, p⟩ := next
    simp only [Pieces.apart, Bool.and_eq_true, Bool.or_eq_true] at h
    obtain ⟨⟨hone, hcloses⟩, hrest⟩ := h
    obtain ⟨ts, ⟨a, after, hwritten, hafter, hreads⟩, hts⟩ :=
      ih hrest (start + (runes (if spaced then " " else "")).size + (runes p.written).size)
    have hgap : Gap (runes (if spaced then " " else "")) := by
      cases spaced with
      | true => exact Gap.space (r := .char ' ') rfl
      | false => exact Gap.nil
    have htoken : IsToken abc p.read.1 p.read.2 (a ++ after) (runes p.written) := by
      rw [← hwritten]
      exact p.isToken rfl hone (hcloses.imp_right Pieces.cutOff)
    refine ⟨_, ⟨_, after, ?_, hafter, .cons hgap htoken hreads⟩, ?_⟩
    · rw [Pieces.written, hwritten]
      simp only [List.append_assoc]
    · rw [List.map_cons, hts]
      rfl

end Reading

section FieldValues

/-- The Query of the most common values of a Field in a Project's Logs. -/
def ChartRuns.fieldValuesQuery (slug field : String) : String :=
  let name := bracketed field
  bracketed slug ++ " | where isnotnull(" ++ name ++ ") | summarize count() by " ++ name ++
    " | sort by count_ desc | take 100"

/-- The pieces of that Query. -/
def fieldValuesPieces (slug field : String) : Pieces :=
  [(false, .name slug), (true, .pipe), (true, .word "where"), (true, .word "isnotnull"), (false, .lparen),
    (false, .name field), (false, .rparen), (true, .pipe), (true, .word "summarize"), (true, .word "count"),
    (false, .lparen), (false, .rparen), (true, .word "by"), (true, .name field), (true, .pipe),
    (true, .word "sort"), (true, .word "by"), (true, .word "count_"), (true, .word "desc"), (true, .pipe),
    (true, .word "take"), (true, .digits "100")]

/-- The text of the Query is its pieces as they are written. -/
theorem runes_fieldValuesQuery (slug field : String) :
    runes (ChartRuns.fieldValuesQuery slug field) = (fieldValuesPieces slug field).written := by
  simp only [ChartRuns.fieldValuesQuery, runes_append, fieldValuesPieces, Pieces.written, Piece.written]
  have hwhere : runes " | where isnotnull(" = runes " " ++ (runes "|" ++ (runes " " ++ (runes "where" ++
    (runes " " ++ (runes "isnotnull" ++ runes "("))))) := by decide +kernel
  have hcount : runes ") | summarize count() by " = runes ")" ++ (runes " " ++ (runes "|" ++ (runes " " ++
    (runes "summarize" ++ (runes " " ++ (runes "count" ++ (runes "(" ++ (runes ")" ++ (runes " " ++
    (runes "by" ++ runes " ")))))))))) := by decide +kernel
  have hsort : runes " | sort by count_ desc | take 100" = runes " " ++ (runes "|" ++ (runes " " ++
    (runes "sort" ++ (runes " " ++ (runes "by" ++ (runes " " ++ (runes "count_" ++ (runes " " ++ (runes "desc" ++
    (runes " " ++ (runes "|" ++ (runes " " ++ (runes "take" ++ (runes " " ++ runes "100")))))))))))))) := by decide +kernel
  have hnone : runes "" = [] := rfl
  rw [hwhere, hcount, hsort]
  simp [hnone]

/-- The test that the Field has a value, its tokens at some places. -/
def isNotNull (field : String) (at' : ℕ → Span) : Syntax.Expr :=
  .call ⟨"isnotnull", at' 3, false⟩ (at' 4) [.ident ⟨field, at' 5, true⟩] (at' 6)

def countStages (field : String) (at' : ℕ → Span) : List Syntax.Stage :=
  [.summarizeStage (at' 7) (at' 8) [⟨none, .call ⟨"count", at' 9, false⟩ (at' 10) [] (at' 11)⟩]
      [⟨none, .ident ⟨field, at' 13, true⟩⟩],
    .sortStage (at' 14) (.union [at' 15, at' 16]) [⟨.ident ⟨"count_", at' 17, false⟩, false, none, at' 18⟩],
    .takeStage (at' 19) (at' 20) ⟨at' 21, .number, "100"⟩]

/-- The tree of that Query. -/
def fieldValuesTree (slug field : String) (at' : ℕ → Span) : Syntax.Query where
  source := some ⟨slug, at' 0, false⟩
  stages := .whereStage (at' 1) (at' 2) (isNotNull field at') :: countStages field at'

/-- The tokens of that Query, at some places. -/
def fieldValuesTokens (slug field : String) (at' : ℕ → Span) : List Token :=
  ⟨.quotedIdentifier, at' 0, slug⟩ :: ⟨.pipe, at' 1, ""⟩ ::
    ([⟨.identifier, at' 2, "where"⟩, ⟨.identifier, at' 3, "isnotnull"⟩, ⟨.lparen, at' 4, ""⟩,
      ⟨.quotedIdentifier, at' 5, field⟩, ⟨.rparen, at' 6, ""⟩] ++ ⟨.pipe, at' 7, ""⟩ ::
    ([⟨.identifier, at' 8, "summarize"⟩, ⟨.identifier, at' 9, "count"⟩, ⟨.lparen, at' 10, ""⟩,
      ⟨.rparen, at' 11, ""⟩, ⟨.identifier, at' 12, "by"⟩, ⟨.quotedIdentifier, at' 13, field⟩] ++
      ⟨.pipe, at' 14, ""⟩ ::
    ([⟨.identifier, at' 15, "sort"⟩, ⟨.identifier, at' 16, "by"⟩, ⟨.identifier, at' 17, "count_"⟩,
      ⟨.identifier, at' 18, "desc"⟩] ++ ⟨.pipe, at' 19, ""⟩ ::
    ([⟨.identifier, at' 20, "take"⟩, ⟨.number, at' 21, "100"⟩] ++ []))))

/-- The tree is written as those tokens. -/
theorem spells_fieldValues (src : Source) (slug field : String) (at' : ℕ → Span) :
    spellsQuery src (fieldValuesTree slug field at') (fieldValuesTokens slug field at') := by
  have hname : ∀ i, spells src (.ident ⟨field, at' i, true⟩) [⟨.quotedIdentifier, at' i, field⟩] := by
    intro i
    simp [spells, spellsIdent]
  have hword : ∀ i, spells src (.ident ⟨"count_", at' i, false⟩) [⟨.identifier, at' i, "count_"⟩] := by
    intro i
    simp only [spells, spellsIdent, Bool.false_eq_true, if_false]
    have hown : "count_" ≠ "true" ∧ "count_" ≠ "false" ∧ "count_" ≠ "not" := by decide
    exact ⟨_, [], rfl, rfl, .none _ _, fun _ => hown⟩
  have hwhere : spellsStage src (.whereStage (at' 1) (at' 2) (isNotNull field at'))
      [⟨.identifier, at' 2, "where"⟩, ⟨.identifier, at' 3, "isnotnull"⟩, ⟨.lparen, at' 4, ""⟩,
        ⟨.quotedIdentifier, at' 5, field⟩, ⟨.rparen, at' 6, ""⟩] :=
    ⟨_, rfl, ⟨trivial, trivial⟩, rfl, "", _, rfl, [_], [_], rfl, hname 5, "", rfl⟩
  have hsummarize : spellsStage src (.summarizeStage (at' 7) (at' 8)
      [⟨none, .call ⟨"count", at' 9, false⟩ (at' 10) [] (at' 11)⟩] [⟨none, .ident ⟨field, at' 13, true⟩⟩])
      [⟨.identifier, at' 8, "summarize"⟩, ⟨.identifier, at' 9, "count"⟩, ⟨.lparen, at' 10, ""⟩,
        ⟨.rparen, at' 11, ""⟩, ⟨.identifier, at' 12, "by"⟩, ⟨.quotedIdentifier, at' 13, field⟩] :=
    ⟨[_, _, _], [_, _], rfl, by simp, .inr ⟨⟨trivial, rfl, "", _, rfl, "", rfl⟩, rfl⟩,
      .inr ⟨_, _, rfl, trivial, hname 13⟩⟩
  have hsort : spellsStage src (.sortStage (at' 14) (.union [at' 15, at' 16])
      [⟨.ident ⟨"count_", at' 17, false⟩, false, none, at' 18⟩])
      [⟨.identifier, at' 15, "sort"⟩, ⟨.identifier, at' 16, "by"⟩, ⟨.identifier, at' 17, "count_"⟩,
        ⟨.identifier, at' 18, "desc"⟩] :=
    ⟨_, _, _, _, .inl rfl, rfl, rfl, [_], [_], [], _, rfl, ⟨trivial, hword 17⟩, .desc _, .none⟩
  have htake : spellsStage src (.takeStage (at' 19) (at' 20) ⟨at' 21, .number, "100"⟩)
      [⟨.identifier, at' 20, "take"⟩, ⟨.number, at' 21, "100"⟩] :=
    ⟨_, .inl rfl, rfl, rfl⟩
  exact ⟨rfl, _, _, rfl, .inr rfl, "", _, _, rfl, hwhere, "", _, _, rfl, hsummarize, "", _, _, rfl, hsort,
    "", _, _, rfl, htake, rfl⟩

/-- Tokens are known by their kinds, their values and their places. -/
theorem exists_places {ts : List Token} {reads : List (TokenKind × String)}
    (h : ts.map (fun tok => (tok.kind, tok.value)) = reads) :
    ∃ at' : ℕ → Span, ts = reads.mapIdx fun i r => ⟨r.1, at' i, r.2⟩ := by
  subst h
  refine ⟨fun i => (ts[i]?.map Token.span).getD .null, List.ext_getElem (by simp) fun i hi _ => ?_⟩
  simp [hi]

/-- The pieces of the Query are apart. -/
theorem apart_fieldValuesPieces (slug field : String) : (fieldValuesPieces slug field).apart = true := by
  have hwords : ∀ value ∈ ["where", "isnotnull", "summarize", "count", "by", "sort", "count_", "desc", "take"],
      (Piece.word value).isOne = true := by decide
  have hdigits : (Piece.digits "100").isOne = true := by decide
  have hname : ∀ value, (Piece.name value).isOne = true := fun _ => rfl
  have hpipe : Piece.isOne .pipe = true := rfl
  have hlparen : Piece.isOne .lparen = true := rfl
  have hrparen : Piece.isOne .rparen = true := rfl
  simp [fieldValuesPieces, Pieces.apart, hwords, hdigits, hname, hpipe, hlparen, hrparen, Piece.closes,
    Piece.isSymbol]

/-- The tree of that Query is parsed of its text, its tokens at some places. -/
theorem parse_fieldValuesQuery (abc : Alphabet) (slug field : String) :
    ∃ at', parse abc (ChartRuns.fieldValuesQuery slug field) = .ok (fieldValuesTree slug field at') := by
  obtain ⟨ts, htokens, hreads⟩ := @Pieces.tokensOf abc _ (apart_fieldValuesPieces slug field) 0
  obtain ⟨at', hts⟩ := exists_places hreads
  have hplaced : ts = fieldValuesTokens slug field at' := by
    rw [hts]
    simp [fieldValuesPieces, fieldValuesTokens, Piece.read]
  refine ⟨at', parse_eq_ok_iff.2 ⟨ts, ?_, by rwa [runes_fieldValuesQuery]⟩⟩
  rw [hplaced]
  exact spells_fieldValues _ slug field at'

end FieldValues

end SolidTrace.LogQuery
