import SolidTrace.LogQuery.ScanPlaces

/-!
# What tokens are written as

The text of a token, from its kind: which of the scanner's readers read it, and what that says of the
text.
-/

namespace SolidTrace.LogQuery

open Scanner

variable {abc : Alphabet}

section Kinds

/-- A parameter is scanned as one or as an error. -/
theorem param_kind (text : Text) : (param abc text).kind = .param ∨ (param abc text).kind = .error := by
  unfold param
  split
  · split
    · exact .inl rfl
    · exact .inr rfl
  · exact .inr rfl

/-- A datetime is scanned as one or as an error. -/
theorem dateTime_kind {text : Text} {scanned : Scanned} (h : dateTime text = some scanned) :
    scanned.kind = .dateTime ∨ scanned.kind = .error := by
  unfold dateTime at h
  split at h
  · cases h
  · split at h
    · split at h
      · cases h
        exact .inr rfl
      · cases h
        exact .inl rfl
    · cases h

/-- A number is scanned as one, as a timespan or as an error. -/
theorem number_kind (text : Text) : (number abc text).kind = .number ∨
    (number abc text).kind = .timespan ∨ (number abc text).kind = .error := by
  unfold number
  dsimp only
  split
  · exact .inl rfl
  · split
    · exact .inr (.inl rfl)
    · exact .inr (.inr rfl)

/-- A string is scanned as one or as an error. -/
theorem string_kind (quote : Char) (text : Text) :
    (string quote text).kind = .string ∨ (string quote text).kind = .error := by
  unfold string
  split
  · exact .inl rfl
  · exact .inr rfl

/-- A bracket is scanned as itself, as a quoted identifier or as an error. -/
theorem bracket_kind (text : Text) : (bracket text).kind = .quotedIdentifier ∨
    (bracket text).kind = .lbracket ∨ (bracket text).kind = .error := by
  unfold bracket
  split
  · split
    · unfold quotedIdentifier
      split
      · exact .inr (.inr rfl)
      · split
        · exact .inl rfl
        · exact .inr (.inr rfl)
    · exact .inr (.inl rfl)
  · exact .inr (.inl rfl)

/-- A word is scanned as an operator, a name, a datetime or an error. -/
theorem identifier_kind (text : Text) : (identifier abc text).kind ∈
    [TokenKind.and, .or, .identifier, .dateTime, .error] := by
  unfold identifier
  dsimp only
  have hname : ∀ (value : String) (rest : Text), (⟨if value = "and" then .and
      else if value = "or" then .or else .identifier, value, rest⟩ : Scanned).kind ∈
        [TokenKind.and, .or, .identifier, .dateTime, .error] := by
    intro value rest
    dsimp only
    split
    · decide
    · split <;> decide
  split
  · cases htime : dateTime (text.dropWhile fun r => isIdentPart abc r.value) with
    | none => exact hname _ _
    | some scanned =>
      rw [Option.getD_some]
      rcases dateTime_kind htime with hkind | hkind <;> rw [hkind] <;> decide
  · exact hname _ _

/-- A symbol is scanned as one of the symbols. -/
theorem symbol_kind {text : Text} {scanned : Scanned} (h : symbol text = some scanned) :
    scanned.kind ∈ symbols.map Prod.snd := by
  obtain ⟨sym, hsym, -, heq⟩ := symbol_eq_some h
  rw [heq]
  exact List.mem_map_of_mem hsym

/-- A token is read by the reader that its first character picks. -/
theorem token_cases (r : Rune) (rest : Text) :
    r.value = '$' ∧ token abc r rest = param abc rest ∨
    isIdentStart abc r.value = true ∧ token abc r rest = identifier abc (r :: rest) ∨
    Scanner.isDigit r.value = true ∧ token abc r rest = number abc (r :: rest) ∨
    isQuote r.value = true ∧ token abc r rest = string r.value rest ∨
    r.value = '[' ∧ token abc r rest = bracket rest ∨
    symbol (r :: rest) = some (token abc r rest) ∨ (token abc r rest).kind = .error := by
  unfold token
  split
  next hdollar => exact .inl ⟨hdollar, rfl⟩
  next =>
    split
    next hstart => exact .inr (.inl ⟨hstart, rfl⟩)
    next =>
      split
      next hdigit => exact .inr (.inr (.inl ⟨hdigit, rfl⟩))
      next =>
        split
        next hquote => exact .inr (.inr (.inr (.inl ⟨hquote, rfl⟩)))
        next =>
          split
          next hbracket => exact .inr (.inr (.inr (.inr (.inl ⟨hbracket, rfl⟩))))
          next =>
            cases symbol (r :: rest) with
            | none => exact .inr (.inr (.inr (.inr (.inr (.inr rfl)))))
            | some scanned => exact .inr (.inr (.inr (.inr (.inr (.inl rfl)))))

end Kinds

section Words

/-- A word that is no other kind of token is a run of the characters of names. -/
theorem identifier_text {text : Text} (h : (identifier abc text).kind = .identifier) :
    identifier abc text = ⟨.identifier, Text.string (text.takeWhile fun r => isIdentPart abc r.value),
      text.dropWhile fun r => isIdentPart abc r.value⟩ := by
  unfold identifier at h ⊢
  dsimp only at h ⊢
  split
  next hdatetime =>
    rw [if_pos hdatetime] at h
    cases htime : dateTime (text.dropWhile fun r => isIdentPart abc r.value) with
    | none =>
      rw [htime, Option.getD_none] at h
      rw [Option.getD_none, Scanned.mk.injEq]
      exact ⟨h, rfl, rfl⟩
    | some scanned =>
      rw [htime, Option.getD_some] at h
      rcases dateTime_kind htime with hkind | hkind <;> rw [hkind] at h <;> cases h
  next hdatetime =>
    rw [if_neg hdatetime] at h
    rw [Scanned.mk.injEq]
    exact ⟨h, rfl, rfl⟩

/-- A token of the kind identifier is a word. -/
theorem token_identifier {r : Rune} {rest : Text} (h : (token abc r rest).kind = .identifier) :
    isIdentStart abc r.value = true ∧ token abc r rest = ⟨.identifier,
      Text.string ((r :: rest).takeWhile fun r => isIdentPart abc r.value),
      (r :: rest).dropWhile fun r => isIdentPart abc r.value⟩ := by
  have hsymbols : TokenKind.identifier ∉ symbols.map Prod.snd := by decide
  rcases @token_cases abc r rest with ⟨-, heq⟩ | ⟨hstart, heq⟩ | ⟨-, heq⟩ | ⟨-, heq⟩ | ⟨-, heq⟩ | heq | heq
  · rcases @param_kind abc rest with hkind | hkind <;> rw [heq, hkind] at h <;> cases h
  · rw [heq] at h ⊢
    exact ⟨hstart, identifier_text h⟩
  · rcases @number_kind abc (r :: rest) with hkind | hkind | hkind <;> rw [heq, hkind] at h <;> cases h
  · rcases string_kind r.value rest with hkind | hkind <;> rw [heq, hkind] at h <;> cases h
  · rcases bracket_kind rest with hkind | hkind | hkind <;> rw [heq, hkind] at h <;> cases h
  · exact absurd (h ▸ symbol_kind heq) hsymbols
  · rw [h] at heq
    cases heq

/-- A word is all there is of it: what comes after is no part of a name. -/
theorem IsToken.identifier {value : String} {rest w : Text} (h : IsToken abc .identifier value rest w) :
    value = Text.string w ∧ ∀ r ∈ rest.head?, isIdentPart abc r.value = false := by
  cases w with
  | nil => exact h.elim
  | cons r w =>
    obtain ⟨-, -, hread, -⟩ := h
    obtain ⟨-, hword⟩ := @token_identifier abc r (w ++ rest) (by rw [hread])
    rw [hread, Scanned.mk.injEq] at hword
    obtain ⟨-, rfl, hrest⟩ := hword
    have hall : ((r :: (w ++ rest)).takeWhile fun r => isIdentPart abc r.value) ++ rest =
        (r :: w) ++ rest := by
      calc ((r :: (w ++ rest)).takeWhile fun r => isIdentPart abc r.value) ++ rest
          = ((r :: (w ++ rest)).takeWhile fun r => isIdentPart abc r.value) ++
              (r :: (w ++ rest)).dropWhile fun r => isIdentPart abc r.value := by rw [← hrest]
        _ = (r :: w) ++ rest := List.takeWhile_append_dropWhile
    refine ⟨by rw [List.append_cancel_right hall], fun c hc => ?_⟩
    rw [hrest] at hc
    have hnot := List.head?_dropWhile_not (fun r : Rune => isIdentPart abc r.value) (r :: (w ++ rest))
    rw [Option.mem_def.1 hc] at hnot
    simpa using hnot

end Words

section Symbols

/-- A token of a symbol's kind is that symbol. -/
theorem token_symbol {r : Rune} {rest : Text} (h : (token abc r rest).kind ∈ symbols.map Prod.snd) :
    symbol (r :: rest) = some (token abc r rest) := by
  rcases @token_cases abc r rest with ⟨-, heq⟩ | ⟨-, heq⟩ | ⟨-, heq⟩ | ⟨-, heq⟩ | ⟨-, heq⟩ | heq | heq
  · rcases @param_kind abc rest with hkind | hkind <;> rw [heq, hkind] at h <;> exact absurd h (by decide)
  · have hnone : ∀ kind ∈ [TokenKind.and, .or, .identifier, .dateTime, .error],
        kind ∉ symbols.map Prod.snd := by decide
    rw [heq] at h
    exact absurd h (hnone _ (identifier_kind _))
  · rcases @number_kind abc (r :: rest) with hkind | hkind | hkind <;> rw [heq, hkind] at h <;>
      exact absurd h (by decide)
  · rcases string_kind r.value rest with hkind | hkind <;> rw [heq, hkind] at h <;>
      exact absurd h (by decide)
  · rcases bracket_kind rest with hkind | hkind | hkind <;> rw [heq, hkind] at h <;>
      exact absurd h (by decide)
  · exact heq
  · rw [heq] at h
    exact absurd h (by decide)

/-- A pipe is one character. -/
theorem IsToken.pipe {value : String} {rest w : Text} (h : IsToken abc .pipe value rest w) :
    ∃ r : Rune, w = [r] ∧ r.value = '|' := by
  cases w with
  | nil => exact h.elim
  | cons r w =>
    obtain ⟨-, -, hread, -⟩ := h
    have hpipe : TokenKind.pipe ∈ symbols.map Prod.snd := by decide
    have hsymbol := @token_symbol abc r (w ++ rest) (by rw [hread]; exact hpipe)
    rw [hread] at hsymbol
    obtain ⟨sym, hsym, hprefix, heq⟩ := symbol_eq_some hsymbol
    have honly : ∀ sym ∈ symbols, sym.2 = .pipe → sym.1 = ['|'] := by decide
    rw [Scanned.mk.injEq] at heq
    rw [honly sym hsym heq.1.symm, afterPrefix_cons] at hprefix
    split at hprefix
    next hr =>
      have hw : w ++ rest = rest := by simpa [afterPrefix_nil] using hprefix
      exact ⟨r, by rw [List.append_left_eq_self.1 hw], hr⟩
    next => cases hprefix

/-- A digit can stand in a name. -/
theorem isIdentPart_of_isDigit {c : Char} (h : Scanner.isDigit c = true) :
    isIdentPart abc c = true := by
  simp only [Scanner.isDigit, Bool.and_eq_true, decide_eq_true_eq] at h
  have hlow : 48 ≤ c.toNat := h.1
  have hhigh : c.toNat ≤ 57 := h.2
  have hdigit : c.isDigit = true := by
    simp only [Char.isDigit, Bool.and_eq_true, decide_eq_true_eq]
    exact h
  have hascii := (abc.ascii c (by omega)).2
  simp [isIdentPart, hascii, hdigit]

/-- Where a name has ended, no letter and no digit comes next, as Go or as another knows them. -/
theorem head_of_ended {r : Rune} {text rest : Text} {n : ℕ} {ts : List Token}
    (htext : ScansTo abc rest n text ts) (hrest : EndsAtPipe rest) (hr : r ∈ (text ++ rest).head?)
    (hended : isIdentPart abc r.value = false) :
    isSpace r.value = true ∨ r.value.toNat < 128 ∧ r.value.isAlphanum = false ∧ r.value ≠ '_' := by
  have hskipped : ∀ text : Text, EndsAtPipe text → r ∈ text.head? →
      isSpace r.value = true ∨ r.value.toNat < 128 ∧ r.value.isAlphanum = false ∧ r.value ≠ '_' := by
    intro text h hr
    rcases h.head r hr with hspace | hslash | hpipe
    · exact .inl hspace
    · rw [hslash]
      decide
    · rw [hpipe]
      decide
  cases htext with
  | nil => exact hskipped rest hrest hr
  | @cons _ gap w a _ _ _ hgap htoken _ =>
    cases gap with
    | cons g gap => exact hskipped (g :: gap) hgap.endsAtPipe (by simpa using hr)
    | nil =>
      cases w with
      | nil => exact htoken.elim
      | cons c w =>
        obtain rfl : c = r := by simpa using hr
        obtain ⟨-, -, hread, hkind⟩ := htoken
        right
        rcases @token_cases abc c (w ++ (a ++ rest)) with ⟨hc, -⟩ | ⟨hc, -⟩ | ⟨hc, -⟩ | ⟨hc, -⟩ |
          ⟨hc, -⟩ | hsymbol | herror
        · simp [isIdentPart, hc] at hended
        · simp [isIdentPart, hc] at hended
        · rw [isIdentPart_of_isDigit hc] at hended
          cases hended
        · rcases (by simpa [isQuote] using hc : c.value = '"' ∨ c.value = '\'') with hc | hc <;>
            rw [hc] <;> decide
        · rw [hc]
          decide
        · obtain ⟨sym, hsym, hprefix, -⟩ := symbol_eq_some hsymbol
          have hall : symbols.all (fun sym => sym.1.head?.all fun c =>
              decide (c.toNat < 128) && (!c.isAlphanum && c != '_')) = true := by decide
          have hfirst : ∀ sym ∈ symbols, ∀ c ∈ sym.1.head?, c.toNat < 128 ∧ c.isAlphanum = false ∧
              c ≠ '_' := by
            intro sym hsym
            simpa only [Option.all_eq_true, Option.mem_def, Bool.and_eq_true, decide_eq_true_eq, Bool.not_eq_true',
              bne_iff_ne] using List.all_eq_true.1 hall sym hsym
          obtain ⟨u, hu, hvalues⟩ := afterPrefix_eq_some hprefix
          obtain ⟨hne, -⟩ := symbols_spell sym hsym
          cases u with
          | nil => exact absurd hvalues.symm hne
          | cons d u =>
            obtain rfl : c = d := (List.cons.inj hu).1
            exact hfirst sym hsym c.value (by rw [← hvalues]; rfl)
        · rw [hread] at herror
          exact absurd herror hkind

end Symbols

end SolidTrace.LogQuery
