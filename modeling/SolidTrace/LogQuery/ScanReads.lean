import SolidTrace.Lib.Readers
import SolidTrace.LogQuery.Scan

/-!
# What a token is read from

A token is read from the start of the text after the spaces and comments. Unless it is a mistake it
ends with what is no space, and it is read again from any text that has the same start, when what
comes after breaks it off.
-/

namespace SolidTrace.LogQuery

open Scanner

section Characters

variable {abc : Alphabet}

/-- A space is none of the other characters. -/
theorem ne_of_isSpace {c d : Char} (hc : isSpace c = true) (hd : isSpace d = false) : c ≠ d := by
  rintro rfl
  exact absurd hc (by simp [hd])

/-- A space is no digit. -/
theorem isDigit_of_isSpace {c : Char} (h : isSpace c = true) : Scanner.isDigit c = false := by
  by_contra hdigit
  simp only [Scanner.isDigit, Bool.not_eq_false, Bool.and_eq_true, decide_eq_true_eq] at hdigit
  have hlow : 48 ≤ c.toNat := hdigit.1
  have hhigh : c.toNat ≤ 57 := hdigit.2
  simp only [isSpace, List.mem_cons, List.not_mem_nil, or_false, Bool.or_eq_true, decide_eq_true_eq,
    Bool.and_eq_true] at h
  omega

/-- A space is no part of a name. -/
theorem isIdentPart_of_isSpace {c : Char} (h : isSpace c = true) : isIdentPart abc c = false := by
  have hunder := ne_of_isSpace h (d := '_') (by decide)
  have hdollar := ne_of_isSpace h (d := '$') (by decide)
  simp [isIdentPart, isIdentStart, hunder, hdollar, abc.space c h]

/-- What no token goes on with: a space, or the start of a comment or of a next stage. -/
def isBreak (c : Char) : Bool := isSpace c || c = '|' || c = '/'

/-- A break is none of the other characters. -/
theorem ne_of_isBreak {c d : Char} (hc : isBreak c = true) (hd : isBreak d = false) : c ≠ d := by
  rintro rfl
  exact absurd hc (by simp [hd])

/-- A break is a space, a pipe or a slash. -/
theorem isBreak_cases {c : Char} (h : isBreak c = true) : isSpace c = true ∨ c = '|' ∨ c = '/' := by
  simpa [isBreak, or_assoc] using h

/-- A break is no digit. -/
theorem isDigit_of_isBreak {c : Char} (h : isBreak c = true) : Scanner.isDigit c = false := by
  rcases isBreak_cases h with h | rfl | rfl
  · exact isDigit_of_isSpace h
  · decide
  · decide

/-- A break is no part of a name. -/
theorem isIdentPart_of_isBreak {c : Char} (h : isBreak c = true) : isIdentPart abc c = false := by
  rcases isBreak_cases h with h | rfl | rfl
  · exact isIdentPart_of_isSpace h
  · simp [isIdentPart, isIdentStart, abc.ascii '|' (by decide)]
  · simp [isIdentPart, isIdentStart, abc.ascii '/' (by decide)]

/-- A digit is no space. -/
theorem isSpace_of_isDigit {c : Char} (h : Scanner.isDigit c = true) : isSpace c = false := by
  by_contra hspace
  simp [isDigit_of_isSpace (Bool.not_eq_false _ ▸ hspace)] at h

/-- A part of a name is no space. -/
theorem isSpace_of_isIdentPart {c : Char} (h : isIdentPart abc c = true) : isSpace c = false := by
  by_contra hspace
  simp [isIdentPart_of_isSpace (Bool.not_eq_false _ ▸ hspace)] at h

end Characters

/-- What breaks any token off: the end, or a break after which no parenthesis of a `datetime(…)`
opens. -/
def Breaks (text : Text) : Prop :=
  (∀ r ∈ text.head?, isBreak r.value = true) ∧
    ∀ r ∈ (text.dropWhile fun r => r.value = ' ' || r.value = '\t').head?, r.value ≠ '('

/-- A text is read to a place in it, up to what is no space. -/
def EndsAt (text rest : Text) : Prop :=
  ∃ w last, text = w ++ last :: rest ∧ isSpace last.value = false

/-- An end of an end of a text is an end of it. -/
theorem EndsAt.trans {text rest after : Text} (h : EndsAt text rest) (h' : EndsAt rest after) :
    EndsAt text after := by
  obtain ⟨w, last, rfl, -⟩ := h
  obtain ⟨w', last', rfl, hlast⟩ := h'
  exact ⟨w ++ last :: w', last', by simp, hlast⟩

/-- A longer text has the same ends. -/
theorem EndsAt.cons {text rest : Text} (h : EndsAt text rest) (r : Rune) :
    EndsAt (r :: text) rest := by
  obtain ⟨w, last, rfl, hlast⟩ := h
  exact ⟨r :: w, last, rfl, hlast⟩

/-- An end of a text is a suffix of it. -/
theorem EndsAt.suffix {text rest : Text} (h : EndsAt text rest) : rest <:+ text := by
  obtain ⟨w, last, rfl, -⟩ := h
  exact ⟨w ++ [last], by simp⟩

/-- An end of a text is shorter than it. -/
theorem EndsAt.length_lt {text rest : Text} (h : EndsAt text rest) : rest.length < text.length := by
  obtain ⟨w, last, rfl, -⟩ := h
  simp only [List.length_append, List.length_cons]
  omega

section Numbers

/-- A run that starts the text and holds no space leaves an end of it. -/
theorem endsAt_takeWhile {p : Rune → Bool} {r : Rune} {rest : Text}
    (hp : ∀ r, p r = true → isSpace r.value = false) (hr : p r = true) :
    EndsAt (r :: rest) ((r :: rest).dropWhile p) := by
  obtain ⟨w, last, hw, hlast⟩ := exists_last_takeWhile hr rest
  exact ⟨w, last, hw, hp last hlast⟩

/-- Digits leave an end of the text. -/
theorem endsAt_digits {r : Rune} {rest : Text} (hr : Scanner.isDigit r.value = true) :
    EndsAt (r :: rest) (digits (r :: rest)) := endsAt_takeWhile (fun _ => isSpace_of_isDigit) hr

/-- Digits are read the same before any break. -/
theorem digits_reader : Reader Breaks digits :=
  Reader.dropWhile fun _ hs r hr => isDigit_of_isBreak (hs.1 r hr)

/-- A fraction leaves the text as it is or an end of it. -/
theorem fraction_endsAt (text : Text) : fraction text = text ∨ EndsAt text (fraction text) := by
  match text with
  | [] => exact .inl rfl
  | [_] => exact .inl rfl
  | dot :: d :: rest =>
    rw [fraction_cons]
    split
    next h => exact .inr ((endsAt_digits h.2).cons dot)
    · exact .inl rfl

/-- No digit starts at a break. -/
theorem Breaks.not_digit {s : Text} (h : Breaks s) : ∀ r ∈ s.head?, Scanner.isDigit r.value = false :=
  fun r hr => isDigit_of_isBreak (h.1 r hr)

/-- What is left of a text is a suffix of it, whether or not anything was read. -/
theorem suffix_of_endsAt {f : Text → Text} {text : Text} (h : f text = text ∨ EndsAt text (f text)) :
    f text <:+ text := by
  rcases h with h | h
  · exact ⟨[], by rw [h, List.nil_append]⟩
  · exact h.suffix

/-- A fraction is read the same before any break. -/
theorem fraction_reader : Reader Breaks fraction := by
  refine ⟨fun text => suffix_of_endsAt (fraction_endsAt text), ?_⟩
  intro m m' s s' hs h
  match m with
  | [] =>
    have hnil : m' = [] := by
      apply @eq_nil_of_append_suffix Rune m' s
      rw [← h]
      exact suffix_of_endsAt (fraction_endsAt s)
    subst hnil
    match s' with
    | [] => rfl
    | [a] => rfl
    | a :: b :: t =>
      have ha := ne_of_isBreak (hs.1 a rfl) (d := '.') (by decide)
      simp [fraction_cons, ha]
  | [a] =>
    have hm' : m' = [a] := by
      cases s with
      | nil => exact (List.append_nil m' ▸ h).symm
      | cons b t =>
        rw [List.cons_append, List.nil_append, fraction_cons] at h
        split at h
        next hb =>
          have hlength := (@endsAt_digits b t hb.2).length_lt
          rw [h] at hlength
          simp only [List.length_append, List.length_cons] at hlength
          omega
        · exact (List.append_cancel_right (by simpa using h)).symm
    subst hm'
    cases s' with
    | nil => rfl
    | cons b t => simp [fraction_cons, hs.not_digit b rfl]
  | a :: b :: m =>
    rw [List.cons_append, List.cons_append, fraction_cons] at h ⊢
    split at h
    next hb => rw [if_pos hb, ← List.cons_append, digits_reader.exchange hs h]
    next hb =>
      have hm' : a :: b :: m = m' := List.append_cancel_right h
      rw [if_neg hb, ← hm']
      rfl

/-- No sign starts at a break. -/
theorem Breaks.sign {s : Text} (h : Breaks s) : Scanner.sign s = s := by
  cases s with
  | nil => rfl
  | cons r rest =>
    have hplus := ne_of_isBreak (h.1 r rfl) (d := '+') (by decide)
    have hminus := ne_of_isBreak (h.1 r rfl) (d := '-') (by decide)
    rw [sign_cons, if_neg (not_or.2 ⟨hplus, hminus⟩)]

/-- A sign is read the same before any break. -/
theorem sign_reader : Reader Breaks Scanner.sign := by
  refine ⟨sign_suffix, ?_⟩
  intro m m' s s' hs h
  cases m with
  | nil =>
    have hnil : m' = [] := by
      apply @eq_nil_of_append_suffix Rune m' s
      rw [← h]
      exact sign_suffix s
    subst hnil
    exact hs.sign
  | cons r m =>
    rw [List.cons_append, sign_cons] at h ⊢
    split at h
    next hr =>
      rw [if_pos hr, List.append_cancel_right h]
    next hr =>
      have hm' : r :: m = m' := List.append_cancel_right h
      rw [if_neg hr, ← hm']
      rfl

/-- Where no digits follow a sign, none do when what comes after is exchanged. -/
theorem sign_exchange_not_digit {m s s' : Text} (hs : Breaks s')
    (h : ∀ r ∈ (Scanner.sign (m ++ s)).head?, Scanner.isDigit r.value = false) :
    ∀ r ∈ (Scanner.sign (m ++ s')).head?, Scanner.isDigit r.value = false := by
  cases m with
  | nil =>
    rw [List.nil_append, hs.sign]
    exact hs.not_digit
  | cons a m =>
    rw [List.cons_append, sign_cons] at h ⊢
    split at h
    next ha =>
      rw [if_pos ha]
      cases m with
      | nil => exact hs.not_digit
      | cons b m => exact h
    next ha =>
      rw [if_neg ha]
      exact h

/-- An exponent leaves the text as it is or an end of it. -/
theorem exponent_endsAt (text : Text) : exponent text = text ∨ EndsAt text (exponent text) := by
  cases text with
  | nil => exact .inl rfl
  | cons e rest =>
    rcases exponent_cases e rest with h | ⟨d, after, hsign, hd, h⟩
    · exact .inl h
    · rw [h]
      refine .inr (EndsAt.cons ?_ e)
      obtain ⟨w, last, hw, hlast⟩ := @endsAt_digits d after hd
      obtain ⟨u, hu⟩ := hsign ▸ sign_suffix rest
      refine ⟨u ++ w, last, ?_, hlast⟩
      rw [← hu, List.append_assoc, ← hw]

/-- An exponent is read the same before any break. -/
theorem exponent_reader : Reader Breaks exponent := by
  refine ⟨fun text => suffix_of_endsAt (exponent_endsAt text), ?_⟩
  intro m m' s s' hs h
  cases m with
  | nil =>
    have hnil : m' = [] := by
      apply @eq_nil_of_append_suffix Rune m' s
      rw [← h]
      exact suffix_of_endsAt (exponent_endsAt s)
    subst hnil
    cases s' with
    | nil => rfl
    | cons a t =>
      have hlower := ne_of_isBreak (hs.1 a rfl) (d := 'e') (by decide)
      have hupper := ne_of_isBreak (hs.1 a rfl) (d := 'E') (by decide)
      exact exponent_of_ne (not_or.2 ⟨hlower, hupper⟩)
  | cons e m =>
    by_cases he : e.value = 'e' ∨ e.value = 'E'
    · by_cases hdigit : ∀ r ∈ (Scanner.sign (m ++ s)).head?, Scanner.isDigit r.value = false
      · rw [List.cons_append, exponent_of_not_digits hdigit] at h
        have hm' : e :: m = m' := List.append_cancel_right h
        rw [List.cons_append, exponent_of_not_digits (sign_exchange_not_digit hs hdigit), ← hm']
        rfl
      · push Not at hdigit
        obtain ⟨d, hhead, hd⟩ := hdigit
        rw [ne_eq, Bool.not_eq_false] at hd
        obtain ⟨after, hsign⟩ : ∃ after, Scanner.sign (m ++ s) = d :: after := by
          cases hsign : Scanner.sign (m ++ s) with
          | nil => simp [hsign] at hhead
          | cons a after =>
            rw [hsign] at hhead
            cases hhead
            exact ⟨after, rfl⟩
        rw [List.cons_append, exponent_of_digits he hsign hd] at h
        -- The digits are read before what is exchanged.
        obtain ⟨u, hu⟩ : ∃ u, d :: after = u ++ s := by
          apply @exists_append_of_suffix Rune m' s
          rw [← h]
          exact (endsAt_digits hd).suffix
        cases u with
        | nil =>
          have hlength := (@endsAt_digits d after hd).length_lt
          rw [h, hu] at hlength
          simp only [List.nil_append, List.length_append] at hlength
          omega
        | cons a u =>
          obtain ⟨rfl, hafter⟩ := List.cons.inj hu
          have hsign' := sign_reader.exchange hs (hsign.trans hu)
          rw [hu] at h
          rw [List.cons_append, exponent_of_digits he hsign' hd]
          exact digits_reader.exchange hs h
    · rw [List.cons_append, exponent_of_ne he] at h ⊢
      have hm' : e :: m = m' := List.append_cancel_right h
      rw [← hm']
      rfl

/-- The text after a number without its unit. -/
theorem plain_reader : Reader Breaks fun text => exponent (fraction (digits text)) :=
  exponent_reader.comp (fraction_reader.comp digits_reader)

/-- A number without its unit leaves an end of the text. -/
theorem plain_endsAt {r : Rune} {rest : Text} (hr : Scanner.isDigit r.value = true) :
    EndsAt (r :: rest) (exponent (fraction (digits (r :: rest)))) := by
  have hdigits := @endsAt_digits r rest hr
  have hfraction : EndsAt (r :: rest) (fraction (digits (r :: rest))) := by
    rcases fraction_endsAt (digits (r :: rest)) with h | h
    · rwa [h]
    · exact hdigits.trans h
  rcases exponent_endsAt (fraction (digits (r :: rest))) with h | h
  · rwa [h]
  · exact hfraction.trans h

/-- What stands before the rest of a text is the part that was read. -/
theorem before_append (w rest : Text) : before (w ++ rest) rest = w := by
  simp [before]

end Numbers

section Quoted

/-- A quoted text is read the same whatever follows its closing quote. -/
theorem unquote_exchange {quote : Char} {m m' s value : Text} (s' : Text)
    (h : unquote quote (m ++ s) = .ok (value, m' ++ s)) :
    unquote quote (m ++ s') = .ok (value, m' ++ s') := by
  have hlength := unquote_length_lt h
  simp only [List.length_append] at hlength
  generalize htext : m ++ s = text at h
  induction text using unquote.induct quote generalizing value m with
  | case1 => cases h
  | case2 r rest hr =>
    rw [unquote_close hr] at h
    cases m with
    | nil =>
      simp only [List.length_nil] at hlength
      omega
    | cons a m =>
      obtain ⟨rfl, hrest⟩ := List.cons.inj htext
      simp only [Except.ok.injEq, Prod.mk.injEq] at h
      obtain ⟨rfl, h⟩ := h
      have hm : m = m' := List.append_cancel_right (hrest.trans h)
      rw [List.cons_append, hm]
      exact unquote_close hr
  | case3 r rest hr hline =>
    rw [unquote_line hr hline] at h
    cases h
  | case4 r hr hline hescape =>
    rw [unquote_end hr hline hescape] at h
    cases h
  | case5 r hr hline hescape e rest c hc ih =>
    rw [unquote_escaped hr hline hescape hc] at h
    obtain ⟨⟨value', after'⟩, hrest, heq⟩ := map_eq_ok h
    simp only [Prod.mk.injEq] at heq
    obtain ⟨rfl, rfl⟩ := heq
    have hlt := unquote_length_lt hrest
    simp only [List.length_append] at hlt
    cases m with
    | nil =>
      simp only [List.length_nil] at hlength
      omega
    | cons a m =>
      cases m with
      | nil =>
        have hs : s = e :: rest := (List.cons.inj htext).2
        rw [hs, List.length_cons] at hlt
        omega
      | cons b m =>
        obtain ⟨rfl, hrest'⟩ := List.cons.inj htext
        obtain ⟨rfl, rfl⟩ := List.cons.inj hrest'
        have hlt' : m'.length + s.length < (m ++ s).length := hlt
        rw [List.length_append] at hlt'
        have hread := ih (by omega) rfl hrest
        rw [List.cons_append, List.cons_append, unquote_escaped hr hline hescape hc, hread]
        rfl
  | case6 r hr hline hescape e rest hc =>
    rw [unquote_unknown hr hline hescape hc] at h
    cases h
  | case7 r rest hr hline hescape ih =>
    rw [unquote_plain hr hline hescape] at h
    obtain ⟨⟨value', after'⟩, hrest, heq⟩ := map_eq_ok h
    simp only [Prod.mk.injEq] at heq
    obtain ⟨rfl, rfl⟩ := heq
    cases m with
    | nil =>
      simp only [List.length_nil] at hlength
      omega
    | cons a m =>
      obtain ⟨rfl, rfl⟩ := List.cons.inj htext
      have hlt : m'.length + s.length < (m ++ s).length := by simpa using unquote_length_lt hrest
      rw [List.length_append] at hlt
      have hread := ih hlt rfl hrest
      rw [List.cons_append, unquote_plain hr hline hescape, hread]
      rfl

/-- A string that is scanned is a quoted text. -/
theorem string_ok {quote : Char} {text : Text} (h : (string quote text).kind ≠ .error) :
    ∃ value after, unquote quote text = .ok (value, after) ∧
      string quote text = ⟨.string, Text.string value, after⟩ := by
  unfold string at h ⊢
  cases hunquote : unquote quote text with
  | error e => simp [hunquote] at h
  | ok found => exact ⟨found.1, found.2, rfl, rfl⟩

/-- A prefix that is found spells its characters. -/
theorem afterPrefix_eq_some {cs : List Char} {text rest : Text} (h : afterPrefix cs text = some rest) :
    ∃ w, text = w ++ rest ∧ w.map Rune.value = cs := by
  induction cs generalizing text with
  | nil =>
    cases h
    exact ⟨[], rfl, rfl⟩
  | cons c cs ih =>
    cases text with
    | nil => cases h
    | cons r text =>
      rw [afterPrefix_cons] at h
      split at h
      next hr =>
        obtain ⟨w, rfl, hw⟩ := ih h
        exact ⟨r :: w, rfl, by rw [List.map_cons, hr, hw]⟩
      · cases h

/-- A prefix that spells its characters is found. -/
theorem afterPrefix_append {cs : List Char} {w : Text} (hw : w.map Rune.value = cs) (rest : Text) :
    afterPrefix cs (w ++ rest) = some rest := by
  subst hw
  induction w with
  | nil => exact afterPrefix_nil rest
  | cons r w ih =>
    rw [List.map_cons, List.cons_append, afterPrefix_cons, if_pos rfl, ih]

/-- A quoted identifier that is scanned is a quoted text and a closing bracket. -/
theorem quotedIdentifier_ok {quote : Char} {text : Text}
    (h : (quotedIdentifier quote text).kind ≠ .error) :
    ∃ value after r rest, unquote quote text = .ok (value, after) ∧ after = r :: rest ∧ r.value = ']' ∧
      quotedIdentifier quote text = ⟨.quotedIdentifier, Text.string value, rest⟩ := by
  unfold quotedIdentifier at h ⊢
  cases hunquote : unquote quote text with
  | error e => simp [hunquote] at h
  | ok found =>
    obtain ⟨value, after⟩ := found
    simp only [hunquote] at h
    cases hafter : afterPrefix [']'] after with
    | none => simp [hafter] at h
    | some rest =>
      obtain ⟨w, rfl, hw⟩ := afterPrefix_eq_some hafter
      obtain ⟨r, w, rfl⟩ : ∃ r u, w = r :: u := List.exists_cons_of_ne_nil fun hnil => by simp [hnil] at hw
      obtain ⟨hr, hnil⟩ := List.cons.inj hw
      rw [List.map_eq_nil_iff] at hnil
      subst hnil
      · refine ⟨value, _, r, rest, rfl, rfl, hr, ?_⟩
        rw [List.singleton_append] at hafter
        simp only [List.singleton_append, hafter]

/-- A quoted text and a closing bracket are scanned as an identifier. -/
theorem quotedIdentifier_of_unquote {quote : Char} {text value rest : Text} {r : Rune}
    (h : unquote quote text = .ok (value, r :: rest)) (hr : r.value = ']') :
    quotedIdentifier quote text = ⟨.quotedIdentifier, Text.string value, rest⟩ := by
  simp [quotedIdentifier, h, afterPrefix_cons, afterPrefix_nil, hr]

end Quoted

section Places

variable {abc : Alphabet}

/-- A datetime that is scanned stands between brackets. -/
theorem dateTime_rest {text : Text} {scanned : Scanned} (h : dateTime text = some scanned)
    (hkind : scanned.kind ≠ .error) : ∃ opens rest closes inside,
      (text.dropWhile fun r => r.value = ' ' || r.value = '	') = opens :: rest ∧ opens.value = '(' ∧
      (rest.dropWhile fun r => r.value != ')') = closes :: scanned.rest ∧
      (rest.takeWhile fun r => r.value != ')') = inside ∧
      scanned = ⟨.dateTime, (unquoted (trimSpace inside)).string, scanned.rest⟩ := by
  unfold dateTime at h
  split at h
  · cases h
  next opens rest hopens =>
    split at h
    next hparen =>
      split at h
      · cases h
        exact absurd rfl hkind
      next closes after hcloses =>
        cases h
        exact ⟨opens, rest, closes, _, hopens, hparen, hcloses, rfl, rfl⟩
    · cases h

/-- A datetime leaves an end of the text. -/
theorem dateTime_endsAt {text : Text} {scanned : Scanned} (h : dateTime text = some scanned)
    (hkind : scanned.kind ≠ .error) : EndsAt text scanned.rest := by
  obtain ⟨opens, rest, closes, inside, hopens, -, hcloses, -, -⟩ := dateTime_rest h hkind
  obtain ⟨u, hu⟩ := hopens ▸ List.dropWhile_suffix fun r : Rune => r.value = ' ' || r.value = '	'
  obtain ⟨v, hv⟩ := hcloses ▸ List.dropWhile_suffix fun r : Rune => r.value != ')'
  have hclose : closes.value = ')' := by
    have hhead := List.head?_dropWhile_not (fun r : Rune => r.value != ')') rest
    rw [hcloses] at hhead
    simpa using hhead
  refine ⟨u ++ opens :: v, closes, ?_, by rw [hclose]; decide⟩
  rw [← hu, ← hv]
  simp

/-- A datetime is read the same whatever follows its closing bracket. -/
theorem dateTime_exchange {m m' s : Text} {kind : TokenKind} {value : String} (s' : Text)
    (h : dateTime (m ++ s) = some ⟨kind, value, m' ++ s⟩) (hkind : kind ≠ .error) :
    dateTime (m ++ s') = some ⟨kind, value, m' ++ s'⟩ := by
  obtain ⟨opens, rest, closes, inside, hopens, hparen, hcloses, hinside, hvalue⟩ :=
    dateTime_rest h hkind
  simp only at hcloses hvalue
  obtain ⟨u, rfl⟩ : ∃ u, rest = u ++ s := by
    apply @exists_append_of_suffix Rune (closes :: m') s
    rw [List.cons_append, ← hcloses]
    exact List.dropWhile_suffix _
  have hopens' := dropWhile_exchange_cons s' hopens
  have hcloses' := dropWhile_exchange_cons s' hcloses
  have hinside' := @takeWhile_exchange _ _ _ (closes :: m') _ _ hcloses hcloses'
  unfold dateTime
  simp only [hopens', if_pos hparen, hcloses', hinside', hinside]
  rw [Scanned.mk.injEq] at hvalue
  rw [hvalue.1, hvalue.2.1]

/-- No datetime starts before a break where none did. -/
theorem dateTime_exchange_none {m s s' : Text} (hs : Breaks s') (h : dateTime (m ++ s) = none) :
    dateTime (m ++ s') = none := by
  have hnone : ∀ text : Text, dateTime text = none ↔
      ∀ r ∈ (text.dropWhile fun r => r.value = ' ' || r.value = '	').head?, r.value ≠ '(' := by
    intro text
    unfold dateTime
    split
    next hnil => simp [hnil]
    next r rest hcons =>
      rw [hcons]
      split
      next hr =>
        constructor
        · intro h
          split at h <;> cases h
        · intro h
          exact absurd hr (h r rfl)
      next hr =>
        simp only [List.head?_cons, Option.mem_some_iff, forall_eq', true_iff]
        exact hr
  rw [hnone, List.dropWhile_append] at h ⊢
  split
  · exact hs.2
  next hne =>
    rw [if_neg hne] at h
    cases hm : m.dropWhile fun r : Rune => r.value = ' ' || r.value = '	' with
    | nil => simp [hm] at hne
    | cons r u =>
      rw [hm] at h
      exact h

end Places

section Symbols

/-- A prefix is found the same whatever follows it. -/
theorem afterPrefix_exchange {cs : List Char} {m m' s : Text} (s' : Text)
    (h : afterPrefix cs (m ++ s) = some (m' ++ s)) : afterPrefix cs (m ++ s') = some (m' ++ s') := by
  obtain ⟨w, hw, hcs⟩ := afterPrefix_eq_some h
  rw [← List.append_assoc] at hw
  rw [List.append_cancel_right hw, List.append_assoc]
  exact afterPrefix_append hcs _

/-- A prefix without a break in it is not found before one where it was not. -/
theorem afterPrefix_exchange_none {cs : List Char} {m s s' : Text}
    (hcs : ∀ c ∈ cs, isBreak c = false) (hs : Breaks s') (h : afterPrefix cs (m ++ s) = none) :
    afterPrefix cs (m ++ s') = none := by
  induction cs generalizing m with
  | nil => cases h
  | cons c cs ih =>
    cases m with
    | nil =>
      cases s' with
      | nil => rfl
      | cons r rest =>
        have hr := ne_of_isBreak (hs.1 r rfl) (hcs c List.mem_cons_self)
        simp [afterPrefix_cons, hr]
    | cons r m =>
      rw [List.cons_append, afterPrefix_cons] at h ⊢
      split
      next hr =>
        rw [if_pos hr] at h
        exact ih (fun c hc => hcs c (List.mem_cons_of_mem _ hc)) h
      · rfl

/-- A symbol is spelled by characters that are no spaces, and no breaks after the first. -/
theorem symbols_spell : ∀ sym ∈ symbols, sym.1 ≠ [] ∧ (∀ c ∈ sym.1, isSpace c = false) ∧
    (∀ c ∈ sym.1.tail, isBreak c = false) ∧ sym.2 ≠ .error := by
  have hall : symbols.all (fun sym => !sym.1.isEmpty && (sym.1.all (!isSpace ·) &&
      (sym.1.tail.all (!isBreak ·) && sym.2 != .error))) = true := by decide
  intro sym hsym
  simpa only [Bool.and_eq_true, Bool.not_eq_true', List.isEmpty_eq_false_iff, List.all_eq_true,
    bne_iff_ne] using List.all_eq_true.1 hall sym hsym

/-- A symbol that the text does not start with, but for its first character, it does not start with
when what comes after is exchanged. -/
theorem afterPrefix_exchange_cons {cs : List Char} {r : Rune} {m s s' : Text} (hne : cs ≠ [])
    (hcs : ∀ c ∈ cs.tail, isBreak c = false) (hs : Breaks s')
    (h : afterPrefix cs (r :: (m ++ s)) = none) : afterPrefix cs (r :: (m ++ s')) = none := by
  cases cs with
  | nil => exact absurd rfl hne
  | cons c cs =>
    rw [afterPrefix_cons] at h ⊢
    split
    next hr =>
      rw [if_pos hr] at h
      exact afterPrefix_exchange_none hcs hs h
    · rfl

/-- A symbol that is scanned is one of them, and found at the start of the text. -/
theorem symbol_eq_some {text : Text} {scanned : Scanned} (h : symbol text = some scanned) :
    ∃ sym ∈ symbols, afterPrefix sym.1 text = some scanned.rest ∧
      scanned = ⟨sym.2, "", scanned.rest⟩ := by
  obtain ⟨sym, hsym, hread⟩ := List.exists_of_findSome?_eq_some h
  rw [Option.map_eq_some_iff] at hread
  obtain ⟨rest, hrest, rfl⟩ := hread
  exact ⟨sym, hsym, hrest, rfl⟩

/-- A symbol leaves an end of the text. -/
theorem symbol_endsAt {text : Text} {scanned : Scanned} (h : symbol text = some scanned) :
    EndsAt text scanned.rest := by
  obtain ⟨sym, hsym, hread, -⟩ := symbol_eq_some h
  obtain ⟨hne, hspaces, -, -⟩ := symbols_spell sym hsym
  obtain ⟨w, rfl, hw⟩ := afterPrefix_eq_some hread
  have hw' : w ≠ [] := by
    rintro rfl
    exact hne hw.symm
  refine ⟨w.dropLast, w.getLast hw', ?_, hspaces _ ?_⟩
  · rw [List.append_cons, List.dropLast_append_getLast hw']
  · rw [← hw]
    exact List.mem_map_of_mem (List.getLast_mem hw')

/-- The first symbol that is found is the same before any break. -/
theorem findSymbol_exchange {r : Rune} {m m' s s' : Text} {kind : TokenKind} {value : String}
    (syms : List (List Char × TokenKind))
    (hsyms : ∀ sym ∈ syms, sym.1 ≠ [] ∧ ∀ c ∈ sym.1.tail, isBreak c = false) (hs : Breaks s')
    (h : (syms.findSome? fun (sym, kind) => (afterPrefix sym (r :: (m ++ s))).map fun rest =>
      (⟨kind, "", rest⟩ : Scanned)) = some ⟨kind, value, m' ++ s⟩) :
    (syms.findSome? fun (sym, kind) => (afterPrefix sym (r :: (m ++ s'))).map fun rest =>
      (⟨kind, "", rest⟩ : Scanned)) = some ⟨kind, value, m' ++ s'⟩ := by
  induction syms with
  | nil => cases h
  | cons sym syms ih =>
    rw [List.findSome?_cons] at h ⊢
    cases hread : afterPrefix sym.1 (r :: (m ++ s)) with
    | none =>
      simp only [hread, Option.map_none] at h
      obtain ⟨hne, htail⟩ := hsyms sym List.mem_cons_self
      have hread' := afterPrefix_exchange_cons hne htail hs hread
      simp only [hread', Option.map_none]
      exact ih (fun sym hsym => hsyms sym (List.mem_cons_of_mem _ hsym)) h
    | some rest =>
      simp only [hread, Option.map_some, Option.some.injEq, Scanned.mk.injEq] at h
      obtain ⟨hkind, hvalue, rfl⟩ := h
      have hread' := @afterPrefix_exchange sym.1 (r :: m) m' s s' hread
      rw [List.cons_append] at hread'
      simp only [hread', Option.map_some, hkind, hvalue]

/-- A symbol is read the same before any break. -/
theorem symbol_exchange {r : Rune} {m m' s s' : Text} {kind : TokenKind} {value : String}
    (hs : Breaks s') (h : symbol (r :: (m ++ s)) = some ⟨kind, value, m' ++ s⟩) :
    symbol (r :: (m ++ s')) = some ⟨kind, value, m' ++ s'⟩ := by
  refine findSymbol_exchange symbols (fun sym hsym => ?_) hs h
  obtain ⟨hne, -, htail, -⟩ := symbols_spell sym hsym
  exact ⟨hne, htail⟩

/-- A bracket, or what it starts, leaves an end of the text. -/
theorem bracket_endsAt {r : Rune} {text : Text} (hr : isSpace r.value = false)
    (h : (bracket text).kind ≠ .error) : EndsAt (r :: text) (bracket text).rest := by
  unfold bracket at h ⊢
  split
  next q rest =>
    split
    next hq =>
      simp only [if_pos hq] at h
      obtain ⟨value, after, c, rest', hunquote, rfl, hc, heq⟩ := quotedIdentifier_ok h
      rw [heq]
      obtain ⟨w, last, rfl, -⟩ := unquote_last _ hunquote
      exact ⟨r :: q :: (w ++ [last]), c, by simp, by rw [hc]; decide⟩
    · exact ⟨[], r, rfl, hr⟩
  · exact ⟨[], r, rfl, hr⟩

/-- A bracket, or what it starts, is read the same before any break. -/
theorem bracket_exchange {m m' s s' : Text} {kind : TokenKind} {value : String} (hs : Breaks s')
    (h : bracket (m ++ s) = ⟨kind, value, m' ++ s⟩) (hkind : kind ≠ .error) :
    bracket (m ++ s') = ⟨kind, value, m' ++ s'⟩ := by
  have hopen : ∀ text : Text, (∀ r ∈ text.head?, isQuote r.value = false) →
      bracket text = ⟨.lbracket, "", text⟩ := by
    intro text hquote
    cases text with
    | nil => rfl
    | cons r rest => simp [bracket, hquote r rfl]
  have hquoted : ∀ q rest, isQuote q.value = true →
      bracket (q :: rest) = quotedIdentifier q.value rest := by
    intro q rest hq
    simp [bracket, hq]
  have hlength : ∀ q rest, isQuote q.value = true → bracket (q :: rest) = ⟨kind, value, m' ++ s⟩ →
      ∃ found after, unquote q.value rest = .ok (found, after) ∧
        ∃ c, after = c :: (m' ++ s) ∧ c.value = ']' ∧ kind = .quotedIdentifier ∧
          value = Text.string found := by
    intro q rest hq hread
    rw [hquoted q rest hq] at hread
    obtain ⟨found, after, c, rest', hunquote, hafter, hc, heq⟩ :=
      quotedIdentifier_ok (by rw [hread]; exact hkind)
    rw [hread, Scanned.mk.injEq] at heq
    obtain ⟨rfl, rfl, rfl⟩ := heq
    exact ⟨found, after, hunquote, c, hafter, hc, rfl, rfl⟩
  cases m with
  | nil =>
    have hspace : ∀ r ∈ s'.head?, isQuote r.value = false := by
      intro r hr
      have hdouble := ne_of_isBreak (hs.1 r hr) (d := '"') (by decide)
      have hsingle := ne_of_isBreak (hs.1 r hr) (d := '\'') (by decide)
      simp [isQuote, hdouble, hsingle]
    by_cases hquote : ∀ r ∈ s.head?, isQuote r.value = false
    · rw [List.nil_append, hopen s hquote, Scanned.mk.injEq] at h
      obtain ⟨rfl, rfl, h⟩ := h
      rw [List.nil_append, hopen s' hspace, List.append_left_eq_self.mp h.symm]
      rfl
    · cases s with
      | nil => exact absurd nofun hquote
      | cons q rest =>
        have hq : isQuote q.value = true := by simpa using hquote
        obtain ⟨found, after, hunquote, c, rfl, -⟩ := hlength q rest hq h
        have hlt := unquote_length_lt hunquote
        simp only [List.length_cons, List.length_append] at hlt
        omega
  | cons q m =>
    by_cases hq : isQuote q.value = true
    · obtain ⟨found, after, hunquote, c, rfl, hc, rfl, rfl⟩ := hlength q (m ++ s) hq h
      have hunquote' := @unquote_exchange q.value m (c :: m') s found s' hunquote
      rw [List.cons_append, hquoted q _ hq]
      exact quotedIdentifier_of_unquote hunquote' hc
    · have hopen' := hopen (q :: m ++ s) (by simpa using hq)
      rw [hopen', Scanned.mk.injEq] at h
      obtain ⟨rfl, rfl, h⟩ := h
      rw [hopen (q :: m ++ s') (by simpa using hq), List.append_cancel_right h]

end Symbols

section Words

variable {abc : Alphabet}

/-- A word is read the same before any break. -/
theorem identPart_reader : Reader Breaks fun text => text.dropWhile fun r => isIdentPart abc r.value :=
  Reader.dropWhile fun _ hs r hr => isIdentPart_of_isBreak (hs.1 r hr)

/-- What starts a name can stand in it. -/
theorem isIdentPart_of_isIdentStart {c : Char} (h : isIdentStart abc c = true) :
    isIdentPart abc c = true := by simp [isIdentPart, h]

/-- A word leaves an end of the text. -/
theorem endsAt_word {r : Rune} {rest : Text} (hr : isIdentPart abc r.value = true) :
    EndsAt (r :: rest) ((r :: rest).dropWhile fun r => isIdentPart abc r.value) :=
  endsAt_takeWhile (fun _ => isSpace_of_isIdentPart) hr

/-- An identifier leaves an end of the text. -/
theorem identifier_endsAt {r : Rune} {rest : Text} (hr : isIdentPart abc r.value = true)
    (h : (identifier abc (r :: rest)).kind ≠ .error) :
    EndsAt (r :: rest) (identifier abc (r :: rest)).rest := by
  have hword := @endsAt_word abc r rest hr
  unfold identifier at h ⊢
  dsimp only at h ⊢
  split
  next hdatetime =>
    rw [if_pos hdatetime] at h
    cases htime : dateTime ((r :: rest).dropWhile fun r => isIdentPart abc r.value) with
    | none => exact hword
    | some scanned =>
      rw [htime] at h
      exact hword.trans (dateTime_endsAt htime h)
  · exact hword

/-- An identifier is read the same before any break. -/
theorem identifier_exchange {m m' s s' : Text} {kind : TokenKind} {value : String} (hs : Breaks s')
    (h : identifier abc (m ++ s) = ⟨kind, value, m' ++ s⟩) (hkind : kind ≠ .error) :
    identifier abc (m ++ s') = ⟨kind, value, m' ++ s'⟩ := by
  unfold identifier at h
  dsimp only at h
  -- Both the word and what follows it are read before what is exchanged.
  have hword : ∀ u, ((m ++ s).dropWhile fun r => isIdentPart abc r.value) = u ++ s →
      ((m ++ s').dropWhile fun r => isIdentPart abc r.value) = u ++ s' ∧
      ((m ++ s').takeWhile fun r => isIdentPart abc r.value) =
        ((m ++ s).takeWhile fun r => isIdentPart abc r.value) := fun u hu =>
    have hu' := identPart_reader.exchange hs hu
    ⟨hu', takeWhile_exchange hu hu'⟩
  unfold identifier
  dsimp only
  split at h
  next hdatetime =>
    cases htime : dateTime ((m ++ s).dropWhile fun r => isIdentPart abc r.value) with
    | none =>
      simp only [htime, Option.getD_none, Scanned.mk.injEq] at h
      obtain ⟨hdrop, htake⟩ := hword m' h.2.2
      rw [h.2.2] at htime
      rw [htake, if_pos hdatetime, hdrop, dateTime_exchange_none hs htime, Option.getD_none,
        Scanned.mk.injEq]
      exact ⟨h.1, h.2.1, rfl⟩
    | some scanned =>
      simp only [htime, Option.getD_some] at h
      subst h
      obtain ⟨u, hu⟩ := exists_append_of_suffix (dateTime_endsAt htime hkind).suffix
      obtain ⟨hdrop, htake⟩ := hword u hu
      rw [hu] at htime
      rw [htake, if_pos hdatetime, hdrop, dateTime_exchange s' htime hkind, Option.getD_some]
  next hdatetime =>
    rw [Scanned.mk.injEq] at h
    obtain ⟨hdrop, htake⟩ := hword m' h.2.2
    rw [htake, if_neg hdatetime, hdrop, Scanned.mk.injEq]
    exact ⟨h.1, h.2.1, rfl⟩

/-- A parameter that is scanned is a name. -/
theorem param_ok {text : Text} (h : (param abc text).kind ≠ .error) :
    ∃ r rest, text = r :: rest ∧ isIdentStart abc r.value = true ∧ param abc text =
      ⟨.param, Text.string (text.takeWhile fun r => isIdentPart abc r.value),
        text.dropWhile fun r => isIdentPart abc r.value⟩ := by
  unfold param at h ⊢
  cases text with
  | nil => exact absurd rfl h
  | cons r rest =>
    dsimp only at h ⊢
    split at h
    next hr =>
      rw [if_pos hr]
      exact ⟨r, rest, rfl, hr, rfl⟩
    · exact absurd rfl h

/-- A parameter leaves an end of the text. -/
theorem param_endsAt {text : Text} (h : (param abc text).kind ≠ .error) :
    EndsAt text (param abc text).rest := by
  obtain ⟨r, rest, rfl, hr, heq⟩ := param_ok h
  rw [heq]
  exact endsAt_word (isIdentPart_of_isIdentStart hr)

/-- A parameter is read the same before any break. -/
theorem param_exchange {m m' s s' : Text} {kind : TokenKind} {value : String} (hs : Breaks s')
    (h : param abc (m ++ s) = ⟨kind, value, m' ++ s⟩) (hkind : kind ≠ .error) :
    param abc (m ++ s') = ⟨kind, value, m' ++ s'⟩ := by
  obtain ⟨r, rest, htext, hr, heq⟩ := param_ok (by rw [h]; exact hkind)
  rw [h, Scanned.mk.injEq] at heq
  obtain ⟨rfl, rfl, hdrop⟩ := heq
  have hdrop' := identPart_reader.exchange hs hdrop.symm
  cases m with
  | nil =>
    have hlength := (@endsAt_word abc r rest (isIdentPart_of_isIdentStart hr)).length_lt
    rw [← htext, ← hdrop] at hlength
    simp only [List.nil_append, List.length_append] at hlength
    omega
  | cons a m =>
    obtain ⟨rfl, -⟩ := List.cons.inj htext
    have htake := takeWhile_exchange hdrop.symm hdrop'
    rw [List.cons_append] at hdrop' htake ⊢
    simp only [param, if_pos hr, hdrop', htake, List.cons_append]

/-- A number, with its unit, leaves an end of the text. -/
theorem number_endsAt {r : Rune} {rest : Text} (hr : Scanner.isDigit r.value = true) :
    EndsAt (r :: rest) (number abc (r :: rest)).rest := by
  have hplain := @plain_endsAt r rest hr
  generalize htext : r :: rest = text at hplain ⊢
  have hrest : (number abc text).rest =
      (exponent (fraction (digits text))).dropWhile fun r => isIdentPart abc r.value := by
    unfold number
    dsimp only
    split
    · rfl
    · split <;> rfl
  rw [hrest]
  cases hunit : exponent (fraction (digits text)) with
  | nil =>
    rw [hunit] at hplain
    exact hplain
  | cons a after =>
    rw [hunit] at hplain
    by_cases ha : isIdentPart abc a.value = true
    · exact hplain.trans (endsAt_word ha)
    · rw [List.dropWhile_cons, if_neg ha]
      exact hplain

/-- What was read of a text does not depend on what follows it. -/
theorem before_exchange {m m' s s' : Text} (h : m' ++ s <:+ m ++ s) :
    before (m ++ s') (m' ++ s') = before (m ++ s) (m' ++ s) := by
  obtain ⟨u, hu⟩ := h
  rw [← List.append_assoc] at hu
  rw [← List.append_cancel_right hu, List.append_assoc, List.append_assoc, before_append,
    before_append]

/-- A number, with its unit, is read the same before any break. -/
theorem number_exchange {m m' s s' : Text} {kind : TokenKind} {value : String} (hs : Breaks s')
    (h : number abc (m ++ s) = ⟨kind, value, m' ++ s⟩) :
    number abc (m ++ s') = ⟨kind, value, m' ++ s'⟩ := by
  have hrest : ((exponent (fraction (digits (m ++ s)))).dropWhile fun r => isIdentPart abc r.value) =
      m' ++ s := by
    have hread : (number abc (m ++ s)).rest = m' ++ s := by rw [h]
    rw [← hread]
    unfold number
    dsimp only
    split
    · rfl
    · split <;> rfl
  have hsuffix : m' ++ s <:+ exponent (fraction (digits (m ++ s))) := by
    rw [← hrest]
    exact List.dropWhile_suffix _
  obtain ⟨u, hu⟩ := exists_append_of_suffix hsuffix
  have hu' := plain_reader.exchange hs hu
  rw [hu] at hrest hsuffix
  have hrest' := (@identPart_reader abc).exchange hs hrest
  have hunit := takeWhile_exchange hrest hrest'
  have hplain : u ++ s <:+ m ++ s := hu ▸ plain_reader.suffix _
  unfold number at h ⊢
  simp only [hu, hrest] at h
  simp only [hu', hrest', hunit, before_exchange hplain, before_exchange (hsuffix.trans hplain)]
  split at h
  next hnumber =>
    rw [if_pos hnumber]
    simp_all
  next hnumber =>
    rw [if_neg hnumber]
    split at h
    next htimespan =>
      rw [if_pos htimespan]
      simp_all
    next htimespan =>
      rw [if_neg htimespan]
      simp_all

end Words

section Tokens

variable {abc : Alphabet}

/-- A token ends with what is no space. -/
theorem token_endsAt {r : Rune} {rest : Text} (hr : isSpace r.value = false)
    (h : (token abc r rest).kind ≠ .error) : EndsAt (r :: rest) (token abc r rest).rest := by
  unfold token at h ⊢
  split
  next hdollar =>
    rw [if_pos hdollar] at h
    exact (param_endsAt h).cons r
  next hdollar =>
    rw [if_neg hdollar] at h
    split
    next hstart =>
      rw [if_pos hstart] at h
      exact identifier_endsAt (isIdentPart_of_isIdentStart hstart) h
    next hstart =>
      rw [if_neg hstart] at h
      split
      next hdigit => exact number_endsAt hdigit
      next hdigit =>
        rw [if_neg hdigit] at h
        split
        next hquote =>
          rw [if_pos hquote] at h
          obtain ⟨value, after, hunquote, heq⟩ := string_ok h
          obtain ⟨w, last, rfl, hlast⟩ := unquote_last rest hunquote
          rw [heq]
          exact ⟨r :: w, last, rfl, by rw [hlast]; exact hr⟩
        next hquote =>
          rw [if_neg hquote] at h
          split
          next hbracket =>
            rw [if_pos hbracket] at h
            exact bracket_endsAt hr h
          next hbracket =>
            rw [if_neg hbracket] at h
            cases hsymbol : symbol (r :: rest) with
            | none => simp [hsymbol] at h
            | some scanned => exact symbol_endsAt hsymbol

/-- A token is read again from a text with the same start, when what comes after breaks it off. -/
theorem token_exchange {r : Rune} {m m' s s' : Text} {kind : TokenKind} {value : String}
    (hs : Breaks s') (h : token abc r (m ++ s) = ⟨kind, value, m' ++ s⟩) (hkind : kind ≠ .error) :
    token abc r (m ++ s') = ⟨kind, value, m' ++ s'⟩ := by
  unfold token at h ⊢
  split
  next hdollar =>
    rw [if_pos hdollar] at h
    exact param_exchange hs h hkind
  next hdollar =>
    rw [if_neg hdollar] at h
    split
    next hstart =>
      rw [if_pos hstart] at h
      exact @identifier_exchange abc (r :: m) m' s s' kind value hs h hkind
    next hstart =>
      rw [if_neg hstart] at h
      split
      next hdigit =>
        rw [if_pos hdigit] at h
        exact @number_exchange abc (r :: m) m' s s' kind value hs h
      next hdigit =>
        rw [if_neg hdigit] at h
        split
        next hquote =>
          rw [if_pos hquote] at h
          obtain ⟨found, after, hunquote, heq⟩ := string_ok (by rw [h]; exact hkind)
          rw [h, Scanned.mk.injEq] at heq
          obtain ⟨rfl, rfl, rfl⟩ := heq
          unfold string
          rw [unquote_exchange s' hunquote]
        next hquote =>
          rw [if_neg hquote] at h
          split
          next hbracket =>
            rw [if_pos hbracket] at h
            exact bracket_exchange hs h hkind
          next hbracket =>
            rw [if_neg hbracket] at h
            cases hsymbol : symbol (r :: (m ++ s)) with
            | none =>
              rw [hsymbol, Option.getD_none, Scanned.mk.injEq] at h
              exact absurd h.1.symm hkind
            | some scanned =>
              rw [hsymbol, Option.getD_some] at h
              subst h
              rw [symbol_exchange hs hsymbol, Option.getD_some]

end Tokens

end SolidTrace.LogQuery
