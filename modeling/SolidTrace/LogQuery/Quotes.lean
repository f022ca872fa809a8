import SolidTrace.Lib.Escapes
import SolidTrace.LogQuery.ParseTexts

/-!
# Names and strings in quotes

How the event store, the browser and Console write a string or a name in quotes into a Query's text, and
that the scanner reads each back as one token, whatever text comes after it.
-/

namespace SolidTrace.LogQuery

section Writers

/-- `String.prototype.replaceAll` and `gsub`, of one character. -/
def replaceAll (text : String) (c : Char) (by' : String) : String :=
  .ofList (Escapes.replaceAll c by'.toList text.toList)

/-- Writes a string as a Query reads it back. -/
def quote (s : String) : String :=
  .ofList ('"' :: (s.toList.flatMap writeRune ++ ['"']))
where
  writeRune (r : Char) : List Char :=
    match r with
    | '"' | '\\' => ['\\', r]
    | '\n' => ['\\', 'n']
    | '\t' => ['\\', 't']
    | '\r' => ['\\', 'r']
    | _ => [r]

namespace Builder

def escape (text : String) : String :=
  replaceAll (replaceAll (replaceAll (replaceAll text '\\' "\\\\") '\n' "\\n") '\t' "\\t") '\r' "\\r"

def stringText (text : String) : String := "\"" ++ replaceAll (escape text) '"' "\\\"" ++ "\""

/-- Names the language reads as words, not Fields. -/
def reserved : List String := ["and", "or", "not", "true", "false"]

/-- `/^[A-Za-z_][A-Za-z0-9_$]*$/`. -/
def plainPart : List Char → Bool
  | [] => false
  | c :: rest => (c.isAlpha || c = '_') && rest.all fun d => d.isAlphanum || d = '_' || d = '$'

/-- Whether a Field's name is written bare. -/
def isPlain (name : String) : Bool :=
  (name.toList.splitOn '.').all fun part => plainPart part && !(String.ofList part ∈ reserved)

/-- A Field's name: bare when it's plain, else quoted. -/
def nameText (name : String) : String :=
  if isPlain name then name else "['" ++ replaceAll (escape name) '\'' "\\'" ++ "']"

/-- A Project's slug as a Query's source, in brackets. -/
def sourceText (slug : String) : String := "['" ++ replaceAll (escape slug) '\'' "\\'" ++ "']"

end Builder

/-- A name as a Query writes it in brackets. -/
def ChartRuns.bracketed (name : String) : String :=
  let escaped := replaceAll (replaceAll (replaceAll (replaceAll (replaceAll name '\\' "\\\\") '\n' "\\n")
    '\t' "\\t") '\r' "\\r") '\'' "\\'"
  "['" ++ escaped ++ "']"

end Writers

section Bodies

/-- The characters that are written as themselves between quotes. -/
def Plain (q c : Char) : Prop := c ≠ q ∧ c ≠ '\n' ∧ c ≠ '\\'

/-- A text as the scanner's escapes write it between quotes. -/
abbrev WrittenIn (q : Char) (s body : List Char) : Prop :=
  Escapes.Written '\\' (Plain q) (fun e c => Scanner.escaped e = some c) s body

/-- A quoted text is written with nothing left bare that would end it. -/
theorem writtenIn_quote (s : String) : WrittenIn '"' s.toList (s.toList.flatMap quote.writeRune) := by
  apply Escapes.Written.flatMap
  intro c
  unfold quote.writeRune
  split
  · exact .inr ⟨'"', rfl, rfl⟩
  · exact .inr ⟨'\\', rfl, rfl⟩
  · exact .inr ⟨'n', rfl, rfl⟩
  · exact .inr ⟨'t', rfl, rfl⟩
  · exact .inr ⟨'r', rfl, rfl⟩
  case h_6 hquote hbackslash hnewline _ _ => exact .inl ⟨⟨hquote, hnewline, hbackslash⟩, rfl⟩

/-- A string as the event store quotes it. -/
theorem quote_written (s : String) : ∃ body : String,
    quote s = "\"" ++ body ++ "\"" ∧ WrittenIn '"' s.toList body.toList := by
  refine ⟨String.ofList (s.toList.flatMap quote.writeRune), ?_, ?_⟩
  · apply String.toList_injective
    simp [quote]
  · rw [String.toList_ofList]
    exact writtenIn_quote s

/-- Replacing one kind of character after another, the backslash first, writes each character apart. -/
theorem writtenIn_replaceAll {q : Char} (hq : q = '"' ∨ q = '\'') (s : String) :
    WrittenIn q s.toList (replaceAll (Builder.escape s) q (String.ofList ['\\', q])).toList := by
  have hbody : (replaceAll (Builder.escape s) q (String.ofList ['\\', q])).toList =
      s.toList.flatMap fun c =>
        Escapes.replaceAll q ['\\', q] (Escapes.replaceAll '\r' ['\\', 'r'] (Escapes.replaceAll '\t' ['\\', 't']
          (Escapes.replaceAll '\n' ['\\', 'n'] (if c = '\\' then ['\\', '\\'] else [c])))) := by
    simp only [replaceAll, Builder.escape, String.toList_ofList, ← Escapes.replaceAll_flatMap]
    rfl
  rw [hbody]
  apply Escapes.Written.flatMap
  intro c
  have hquote : q ≠ '\\' ∧ q ≠ '\n' ∧ q ≠ '\t' ∧ q ≠ '\r' ∧ q ≠ 'n' ∧ q ≠ 't' ∧ q ≠ 'r' := by
    rcases hq with rfl | rfl <;> decide
  have hname : Scanner.escaped q = some q := by
    rcases hq with rfl | rfl <;> rfl
  obtain ⟨hbackslash, hnewline, htab, hreturn, hn, ht, hr⟩ := hquote
  by_cases hc : c = '\\'
  · subst hc
    exact .inr ⟨'\\', rfl, by simp [hbackslash.symm]⟩
  by_cases hline : c = '\n'
  · subst hline
    exact .inr ⟨'n', rfl, by simp [hbackslash.symm, hn.symm]⟩
  by_cases hindent : c = '\t'
  · subst hindent
    exact .inr ⟨'t', rfl, by simp [hbackslash.symm, ht.symm]⟩
  by_cases hback : c = '\r'
  · subst hback
    exact .inr ⟨'r', rfl, by simp [hbackslash.symm, hr.symm]⟩
  by_cases hcq : c = q
  · subst hcq
    exact .inr ⟨c, hname, by simp [hc, hline, hindent, hback]⟩
  · exact .inl ⟨⟨hcq, hline, hc⟩, by simp [hc, hline, hindent, hback, hcq]⟩

end Bodies

section Reading

variable {abc : Alphabet}

/-- The scanner reads what is written in quotes up to its own closing quote. -/
theorem unquote_written {q : Char} {s body : List Char} (h : WrittenIn q s body) (rest : Text) (hq : q ≠ '\\') :
    Scanner.unquote q (body.map .char ++ .char q :: rest) = .ok (s.map .char, rest) := by
  induction h with
  | nil =>
    rw [List.map_nil, List.nil_append]
    exact Scanner.unquote_close rfl
  | plain hc _ ih =>
    rw [List.map_cons, List.cons_append, @Scanner.unquote_plain q (.char _) _ hc.1 hc.2.1 hc.2.2, ih]
    rfl
  | @escaped c e s body he _ ih =>
    have hline : ¬ '\\' = '\n' := by decide
    rw [List.map_cons, List.map_cons, List.cons_append, List.cons_append,
      @Scanner.unquote_escaped q (.char '\\') (.char e) _ c hq.symm hline rfl he, ih]
    rfl

/-- Text in double quotes is one string. -/
theorem isToken_string {s body : String} (h : WrittenIn '"' s.toList body.toList) (rest : Text) :
    IsToken abc .string s rest (runes ("\"" ++ body ++ "\"")) := by
  have hrunes : runes ("\"" ++ body ++ "\"") = .char '"' :: (body.toList.map .char ++ [.char '"']) := by
    rw [runes_append, runes_append]
    rfl
  have hread := unquote_written h rest (by decide)
  have hident : ¬ Scanner.isIdentStart abc (Rune.value (.char '"')) = true := by
    simp [Rune.value, Scanner.isIdentStart, (abc.ascii '"' (by decide)).1]
  rw [hrunes]
  refine ⟨by decide, rfl, ?_, by simp⟩
  have hstring : Scanner.string '"' (body.toList.map .char ++ .char '"' :: rest) = ⟨.string, s, rest⟩ := by
    have hvalue : Text.string (s.toList.map .char) = s := string_runes s
    rw [Scanner.string, hread]
    simp only [hvalue]
  rw [List.append_assoc, List.singleton_append, Scanner.token, if_neg (by decide), if_neg hident,
    if_neg (by decide), if_pos (by decide)]
  exact hstring

/-- A name in brackets and single quotes is one name. -/
theorem isToken_quotedIdentifier {s body : String} (h : WrittenIn '\'' s.toList body.toList) (rest : Text) :
    IsToken abc .quotedIdentifier s rest (runes ("['" ++ body ++ "']")) := by
  have hrunes : runes ("['" ++ body ++ "']") =
      .char '[' :: .char '\'' :: (body.toList.map .char ++ [.char '\'', .char ']']) := by
    rw [runes_append, runes_append]
    rfl
  have hread := unquote_written h (.char ']' :: rest) (by decide)
  have hident : ¬ Scanner.isIdentStart abc (Rune.value (.char '[')) = true := by
    simp [Rune.value, Scanner.isIdentStart, (abc.ascii '[' (by decide)).1]
  rw [hrunes]
  refine ⟨by decide, rfl, ?_, by simp⟩
  have hbracket : Scanner.quotedIdentifier '\'' (body.toList.map .char ++ .char '\'' :: .char ']' :: rest) =
      ⟨.quotedIdentifier, s, rest⟩ := by
    have hvalue : Text.string (s.toList.map .char) = s := string_runes s
    rw [quotedIdentifier_of_unquote hread rfl, hvalue]
  rw [List.cons_append, List.append_assoc, List.cons_append, List.cons_append, List.nil_append, Scanner.token,
    if_neg (by decide), if_neg hident, if_neg (by decide), if_neg (by decide), if_pos (by decide),
    Scanner.bracket, if_pos (by decide)]
  exact hbracket

/-- A text on one line that the scanner reads as one token of a value wherever it comes to the text, and
goes on with what follows. -/
structure ReadAs (abc : Alphabet) (kind : TokenKind) (value written : String) : Prop where
  oneLine : '\n' ∉ written.toList
  reads : ∀ n start rest, Scanner.scanFrom abc (n + 1) start (runes written ++ rest) =
    ⟨kind, ⟨start, (start + (runes written).size : ℕ)⟩, value⟩ ::
      Scanner.scanFrom abc n (start + (runes written).size) rest

/-- What is spelled as one token, whatever follows, is read as it. -/
theorem ReadAs.of_isToken {kind : TokenKind} {value written : String} (hline : '\n' ∉ written.toList)
    (h : ∀ rest, IsToken abc kind value rest (runes written)) : ReadAs abc kind value written := by
  refine ⟨hline, fun n start rest => ?_⟩
  have hscan := @scanFrom_cons abc n start _ _ _ _ _ Gap.nil (h rest)
  rwa [List.nil_append, Text.size_nil, Nat.add_zero] at hscan

/-- A text that is written in quotes stays on its line. -/
theorem newline_not_mem_written {q : Char} {s body : List Char} (h : WrittenIn q s body) : '\n' ∉ body := by
  intro hmem
  have hnames : ∀ e c, Scanner.escaped e = some c → e ≠ '\n' := by
    rintro e c he rfl
    cases he
  exact h.forall_mem (fun c hc => hc.2.1) (by decide) hnames '\n' hmem rfl

/-- A text in double quotes is read as a string. -/
theorem readAs_string {s body : String} (h : WrittenIn '"' s.toList body.toList) :
    ReadAs abc .string s ("\"" ++ body ++ "\"") := by
  refine .of_isToken ?_ (isToken_string h)
  have hbody := newline_not_mem_written h
  simp [hbody]

/-- A text in brackets and single quotes is read as a quoted identifier. -/
theorem readAs_quotedIdentifier {s body : String} (h : WrittenIn '\'' s.toList body.toList) :
    ReadAs abc .quotedIdentifier s ("['" ++ body ++ "']") := by
  refine .of_isToken ?_ (isToken_quotedIdentifier h)
  have hbody := newline_not_mem_written h
  simp [hbody]

end Reading

/-- Each of the writers' quotes is read as one token of the text that was quoted. -/
theorem quotes_exact (abc : Alphabet) (s : String) :
    ReadAs abc .string s (quote s) ∧ ReadAs abc .string s (Builder.stringText s) ∧
      (Builder.isPlain s = false → ReadAs abc .quotedIdentifier s (Builder.nameText s)) ∧
      ReadAs abc .quotedIdentifier s (Builder.sourceText s) ∧
      ReadAs abc .quotedIdentifier s (ChartRuns.bracketed s) := by
  have hdouble := writtenIn_replaceAll (.inl rfl) s
  have hsingle := writtenIn_replaceAll (.inr rfl) s
  refine ⟨?_, readAs_string hdouble, fun hplain => ?_, readAs_quotedIdentifier hsingle,
    readAs_quotedIdentifier hsingle⟩
  · obtain ⟨body, hquote, hbody⟩ := quote_written s
    rw [hquote]
    exact readAs_string hbody
  · rw [Builder.nameText, hplain]
    exact readAs_quotedIdentifier hsingle

/-- A name with a quote in it. -/
theorem quotes_exact_obrien :
    ReadAs Sample.alphabet .quotedIdentifier "o'brien" (Builder.nameText "o'brien") :=
  (quotes_exact Sample.alphabet "o'brien").2.2.1 (by decide)

end SolidTrace.LogQuery
