import SolidTrace.LogQuery.Compile
import SolidTrace.LogQuery.Parse

/-!
# Scanning a Query's text

The scanner that splits a Query's text into tokens, with spaces and comments between them. A text is
what Go reads it as: its characters, and each byte that is no part of one. Go's tables of letters and
digits, and the verb `%q`, are parameters.
-/

namespace SolidTrace.LogQuery

section Texts

/-- A character of a text, or a byte that is no part of valid UTF-8. -/
inductive Rune where
  | char (c : Char)
  | broken (byte : UInt8)
deriving DecidableEq

/-- The character a rune is read as. -/
def Rune.value : Rune → Char
  | .char c => c
  | .broken _ => '\uFFFD'

def Rune.bytes : Rune → List UInt8
  | .char c => String.utf8EncodeChar c
  | .broken byte => [byte]

abbrev Text := List Rune

/-- The number of a text's bytes. -/
def Text.size (text : Text) : ℕ := (text.map fun r => r.bytes.length).sum

/-- The text as a string, each byte that is no part of a character replaced. -/
def Text.string (text : Text) : String := String.ofList (text.map Rune.value)

/-- A string as Go reads it. -/
def runes (text : String) : Text := text.toList.map .char

/-- `unicode.IsSpace`. -/
def isSpace (c : Char) : Bool :=
  c.toNat ∈ [0x09, 0x0A, 0x0B, 0x0C, 0x0D, 0x20, 0x85, 0xA0, 0x1680, 0x2028, 0x2029, 0x202F, 0x205F,
    0x3000] || (0x2000 ≤ c.toNat && c.toNat ≤ 0x200A)

/-- `unicode.IsLetter` and `unicode.IsDigit`, and the verb `%q`. -/
structure Alphabet where
  isLetter : Char → Bool
  isDigit : Char → Bool
  quote : String → String
  ascii : ∀ c : Char, c.toNat < 128 → isLetter c = c.isAlpha ∧ isDigit c = c.isDigit
  space : ∀ c, isSpace c = true → isLetter c = false ∧ isDigit c = false
  replacement : isLetter '\uFFFD' = false ∧ isDigit '\uFFFD' = false

end Texts

namespace Scanner

/-- The text after a prefix of it, if it has that. -/
def afterPrefix : List Char → Text → Option Text
  | [], text => some text
  | c :: cs, r :: rest => if r.value = c then afterPrefix cs rest else none
  | _ :: _, [] => none

/-- The text before a place in it. -/
def before (text rest : Text) : Text := text.take (text.length - rest.length)

/-- The text after its spaces and comments, or after those that follow the comment it starts in. A
comment runs to the end of its line. -/
def skip : Bool → Text → Text
  | _, [] => []
  | true, r :: rest => skip (r.value != '\n') rest
  | false, r :: rest =>
    if isSpace r.value then skip false rest
    else if (afterPrefix ['/', '/'] (r :: rest)).isSome then skip true rest
    else r :: rest

/-- A prefix is found one character at a time. -/
theorem afterPrefix_cons (c : Char) (cs : List Char) (r : Rune) (rest : Text) :
    afterPrefix (c :: cs) (r :: rest) = if r.value = c then afterPrefix cs rest else none := rfl

/-- No prefix leaves the text. -/
theorem afterPrefix_nil (text : Text) : afterPrefix [] text = some text := by
  cases text <;> rfl

/-- Two slashes start a comment. -/
theorem afterPrefix_comment {r r' : Rune} {text : Text} :
    (afterPrefix ['/', '/'] (r :: r' :: text)).isSome = true ↔ r.value = '/' ∧ r'.value = '/' := by
  rw [afterPrefix_cons, afterPrefix_cons, afterPrefix_nil]
  by_cases hr : r.value = '/' <;> by_cases hr' : r'.value = '/' <;> simp [hr, hr']

/-- One character starts none. -/
theorem not_afterPrefix_comment (r : Rune) : ¬(afterPrefix ['/', '/'] [r]).isSome = true := by
  rw [afterPrefix_cons]
  by_cases hr : r.value = '/' <;> simp [hr, show afterPrefix ['/'] [] = none from rfl]

/-- A space is skipped, a comment is entered, and anything else stops. -/
theorem skip_cons (r : Rune) (rest : Text) : skip false (r :: rest) =
    if isSpace r.value then skip false rest
    else if (afterPrefix ['/', '/'] (r :: rest)).isSome then skip true rest
    else r :: rest := rfl

/-- A comment ends with its line. -/
theorem skip_inComment (r : Rune) (rest : Text) : skip true (r :: rest) = skip (r.value != '\n') rest := rfl

/-- A space is skipped. -/
theorem skip_space {r : Rune} (h : isSpace r.value = true) (text : Text) :
    skip false (r :: text) = skip false text := if_pos h

/-- A comment is entered at its two slashes. -/
theorem skip_comment {r : Rune} {rest : Text} (hspace : ¬isSpace r.value = true)
    (hcomment : (afterPrefix ['/', '/'] (r :: rest)).isSome = true) : skip false (r :: rest) = skip true rest :=
  (if_neg hspace).trans (if_pos hcomment)

/-- Nothing is skipped before what is neither a space nor a comment. -/
theorem skip_stop {r : Rune} {rest : Text} (hspace : isSpace r.value = false)
    (hcomment : (afterPrefix ['/', '/'] (r :: rest)).isSome = false) : skip false (r :: rest) = r :: rest :=
  (if_neg (ne_true_of_eq_false hspace)).trans (if_neg (ne_true_of_eq_false hcomment))

def skipSpaceAndComments (text : Text) : Text := skip false text

/-- What is scanned at a place: a token's kind and value, and the text after it. -/
structure Scanned where
  kind : TokenKind
  value : String
  rest : Text

def isDigit (c : Char) : Bool := '0' ≤ c && c ≤ '9'

def isQuote (c : Char) : Bool := c = '"' || c = '\''

section Literals

/-- `strings.TrimSpace`. -/
def trimSpace (text : Text) : Text :=
  ((text.dropWhile fun r => isSpace r.value).reverse.dropWhile fun r => isSpace r.value).reverse

/-- What quotes hold, or the text as it is. -/
def unquoted : Text → Text
  | first :: rest =>
    if isQuote first.value ∧ rest.getLast?.map Rune.value = some first.value then rest.dropLast
    else first :: rest
  | [] => []

/-- The parentheses of `datetime(…)`, after the name, if one opens. -/
def dateTime (text : Text) : Option Scanned :=
  match text.dropWhile fun r => r.value = ' ' || r.value = '\t' with
  | [] => none
  | r :: rest =>
    if r.value = '(' then
      match rest.dropWhile fun r => r.value != ')' with
      | [] => some ⟨.error, "expected ) after datetime(…", []⟩
      | _ :: after =>
        let inside := rest.takeWhile fun r => r.value != ')'
        some ⟨.dateTime, (unquoted (trimSpace inside)).string, after⟩
    else none

def digits (text : Text) : Text := text.dropWhile fun r => isDigit r.value

/-- The text after a fraction. -/
def fraction : Text → Text
  | dot :: d :: rest =>
    if dot.value = '.' ∧ isDigit d.value = true then digits (d :: rest) else dot :: d :: rest
  | text => text

/-- The text after a sign. -/
def sign : Text → Text
  | r :: rest => if r.value = '+' ∨ r.value = '-' then rest else r :: rest
  | [] => []

/-- The text after an exponent, if that has digits. -/
def exponent : Text → Text
  | e :: rest =>
    if e.value = 'e' ∨ e.value = 'E' then
      match sign rest with
      | d :: after => if isDigit d.value then digits (d :: after) else e :: rest
      | [] => e :: rest
    else e :: rest
  | [] => []

/-- A fraction is a dot and the digits after it. -/
theorem fraction_cons (dot d : Rune) (rest : Text) : fraction (dot :: d :: rest) =
    if dot.value = '.' ∧ isDigit d.value = true then digits (d :: rest) else dot :: d :: rest := rfl

/-- A sign is a plus or a minus. -/
theorem sign_cons (r : Rune) (rest : Text) :
    sign (r :: rest) = if r.value = '+' ∨ r.value = '-' then rest else r :: rest := rfl

/-- A sign is a character at most. -/
theorem sign_suffix (text : Text) : sign text <:+ text := by
  cases text with
  | nil => exact List.suffix_rfl
  | cons r rest =>
    rw [sign_cons]
    split
    · exact List.suffix_cons r rest
    · exact List.suffix_rfl

/-- What does not start with an `e` is no exponent. -/
theorem exponent_of_ne {e : Rune} {rest : Text} (he : ¬(e.value = 'e' ∨ e.value = 'E')) :
    exponent (e :: rest) = e :: rest := if_neg he

/-- The digits of an exponent are read. -/
theorem exponent_of_digits {e : Rune} {rest after : Text} {d : Rune}
    (he : e.value = 'e' ∨ e.value = 'E') (hsign : sign rest = d :: after)
    (hd : isDigit d.value = true) : exponent (e :: rest) = digits (d :: after) := by
  simp only [exponent, if_pos he, hsign, if_pos hd]

/-- An exponent without digits is none. -/
theorem exponent_of_not_digits {e : Rune} {rest : Text}
    (h : ∀ r ∈ (sign rest).head?, isDigit r.value = false) :
    exponent (e :: rest) = e :: rest := by
  simp only [exponent]
  split
  · split
    next d after hsign =>
      have hd := h d (by rw [hsign]; rfl)
      simp [hd]
    · rfl
  · rfl

/-- An exponent is read to the end of its digits, or not at all. -/
theorem exponent_cases (e : Rune) (rest : Text) : exponent (e :: rest) = e :: rest ∨
    ∃ d after, sign rest = d :: after ∧ isDigit d.value = true ∧ exponent (e :: rest) = digits (d :: after) := by
  by_cases he : e.value = 'e' ∨ e.value = 'E'
  · cases hsign : sign rest with
    | nil => exact .inl (exponent_of_not_digits (by simp [hsign]))
    | cons d after =>
      cases hd : isDigit d.value with
      | false => exact .inl (exponent_of_not_digits (by simp [hsign, hd]))
      | true => exact .inr ⟨d, after, rfl, hd, exponent_of_digits he hsign hd⟩
  · exact .inl (exponent_of_ne he)

/-- The character an escape stands for. -/
def escaped : Char → Option Char
  | '\\' => some '\\'
  | '\'' => some '\''
  | '"' => some '"'
  | 'n' => some '\n'
  | 't' => some '\t'
  | 'r' => some '\r'
  | _ => none

/-- The text inside quotes, from past the opening one, and the text after the closing one; or what is
wrong, and the text after that. An unknown escape ends after its first byte. -/
def unquote (quote : Char) : Text → Except (String × Text) (Text × Text)
  | [] => .error ("unterminated string", [])
  | r :: rest =>
    if r.value = quote then .ok ([], rest)
    else if r.value = '\n' then .error ("a string can't span lines", r :: rest)
    else if r.value = '\\' then
      match rest with
      | [] => .error ("unterminated string", [])
      | e :: rest =>
        match escaped e.value with
        | some c => (unquote quote rest).map fun (value, after) => (.char c :: value, after)
        | none =>
          .error ("unknown escape \\" ++ String.singleton (Char.ofNat (e.bytes.headD 0).toNat),
            e.bytes.tail.map .broken ++ rest)
    else (unquote quote rest).map fun (value, after) => (r :: value, after)

section Unquote

variable {quote : Char} {r e : Rune} {rest : Text}

/-- The closing quote ends what quotes hold. -/
theorem unquote_close (hr : r.value = quote) : unquote quote (r :: rest) = .ok ([], rest) := by
  cases rest with
  | nil => exact if_pos hr
  | cons e rest => exact if_pos hr

/-- A line break is wrong inside quotes. -/
theorem unquote_line (hr : r.value ≠ quote) (hline : r.value = '\n') :
    unquote quote (r :: rest) = .error ("a string can't span lines", r :: rest) := by
  cases rest with
  | nil => exact (if_neg hr).trans (if_pos hline)
  | cons e rest => exact (if_neg hr).trans (if_pos hline)

/-- Nothing follows the backslash of an escape. -/
theorem unquote_end (hr : r.value ≠ quote) (hline : r.value ≠ '\n') (hescape : r.value = '\\') :
    unquote quote [r] = .error ("unterminated string", []) :=
  ((if_neg hr).trans (if_neg hline)).trans (if_pos hescape)

/-- An escape is read as the character it stands for. -/
theorem unquote_escaped {c : Char} (hr : r.value ≠ quote) (hline : r.value ≠ '\n') (hescape : r.value = '\\')
    (hc : escaped e.value = some c) : unquote quote (r :: e :: rest) =
      (unquote quote rest).map fun (value, after) => (.char c :: value, after) := by
  refine ((if_neg hr).trans (if_neg hline)).trans ((if_pos hescape).trans ?_)
  dsimp only
  rw [hc]

/-- An escape that stands for no character is wrong. -/
theorem unquote_unknown (hr : r.value ≠ quote) (hline : r.value ≠ '\n') (hescape : r.value = '\\')
    (hc : escaped e.value = none) : unquote quote (r :: e :: rest) =
      .error ("unknown escape \\" ++ String.singleton (Char.ofNat (e.bytes.headD 0).toNat),
        e.bytes.tail.map .broken ++ rest) := by
  refine ((if_neg hr).trans (if_neg hline)).trans ((if_pos hescape).trans ?_)
  dsimp only
  rw [hc]

/-- Any other character is read as it is. -/
theorem unquote_plain (hr : r.value ≠ quote) (hline : r.value ≠ '\n') (hescape : r.value ≠ '\\') :
    unquote quote (r :: rest) = (unquote quote rest).map fun (value, after) => (r :: value, after) := by
  cases rest with
  | nil => exact ((if_neg hr).trans (if_neg hline)).trans (if_neg hescape)
  | cons e rest => exact ((if_neg hr).trans (if_neg hline)).trans (if_neg hescape)

/-- What a mapped result comes from. -/
theorem map_eq_ok {ε α β : Type} {f : α → β} {r : Except ε α} {b : β} (h : r.map f = .ok b) :
    ∃ a, r = .ok a ∧ f a = b := by
  cases r with
  | error e => cases h
  | ok a => exact ⟨a, rfl, by simpa [Except.map] using h⟩

/-- What quotes hold is read to the closing quote. -/
theorem unquote_last (text : Text) {value after : Text}
    (h : unquote quote text = .ok (value, after)) :
    ∃ w last, text = w ++ last :: after ∧ last.value = quote := by
  induction text using unquote.induct quote generalizing value with
  | case1 => cases h
  | case2 r rest hr =>
    rw [unquote_close hr] at h
    cases h
    exact ⟨[], r, rfl, hr⟩
  | case3 r rest hr hline =>
    rw [unquote_line hr hline] at h
    cases h
  | case4 r hr hline hescape =>
    rw [unquote_end hr hline hescape] at h
    cases h
  | case5 r hr hline hescape e rest c hc ih =>
    rw [unquote_escaped hr hline hescape hc] at h
    obtain ⟨⟨value', after'⟩, hrest, heq⟩ := map_eq_ok h
    cases heq
    obtain ⟨w, last, rfl, hlast⟩ := ih hrest
    exact ⟨r :: e :: w, last, rfl, hlast⟩
  | case6 r hr hline hescape e rest hc =>
    rw [unquote_unknown hr hline hescape hc] at h
    cases h
  | case7 r rest hr hline hescape ih =>
    rw [unquote_plain hr hline hescape] at h
    obtain ⟨⟨value', after'⟩, hrest, heq⟩ := map_eq_ok h
    cases heq
    obtain ⟨w, last, rfl, hlast⟩ := ih hrest
    exact ⟨r :: w, last, rfl, hlast⟩

/-- What follows what is quoted is shorter. -/
theorem unquote_length_lt {text value after : Text}
    (h : unquote quote text = .ok (value, after)) : after.length < text.length := by
  obtain ⟨w, last, rfl, -⟩ := unquote_last text h
  simp only [List.length_append, List.length_cons]
  omega

end Unquote

/-- A string, after its opening quote. -/
def string (quote : Char) (text : Text) : Scanned :=
  match unquote quote text with
  | .ok (value, after) => ⟨.string, Text.string value, after⟩
  | .error (message, after) => ⟨.error, message, after⟩

/-- A name in brackets, after its bracket and its opening quote. -/
def quotedIdentifier (quote : Char) (text : Text) : Scanned :=
  match unquote quote text with
  | .error (message, after) => ⟨.error, message, after⟩
  | .ok (value, after) =>
    match afterPrefix [']'] after with
    | some rest => ⟨.quotedIdentifier, Text.string value, rest⟩
    | none => ⟨.error, "expected ] after the quoted name", after⟩

/-- What a bracket opens. -/
def bracket : Text → Scanned
  | r :: rest => if isQuote r.value then quotedIdentifier r.value rest else ⟨.lbracket, "", r :: rest⟩
  | [] => ⟨.lbracket, "", []⟩

end Literals

/-- The symbols, the longest first. -/
def symbols : List (List Char × TokenKind) :=
  [(['=', '='], .eq), (['!', '='], .ne), (['=', '~'], .eqCI), (['!', '~'], .neCI), (['<', '='], .le),
    (['>', '='], .ge), (['!'], .bang), (['|'], .pipe), (['.'], .dot), ([','], .comma),
    (['('], .lparen), ([')'], .rparen), ([']'], .rbracket), (['+'], .plus), (['-'], .minus),
    (['*'], .star), (['/'], .slash), (['%'], .mod), (['='], .assign), (['<'], .lt), (['>'], .gt)]

/-- The first of the symbols that a text starts with. -/
def symbol (text : Text) : Option Scanned :=
  symbols.findSome? fun (sym, kind) => (afterPrefix sym text).map fun rest => ⟨kind, "", rest⟩

section Words

variable (abc : Alphabet)

/-- Whether a character can start a name. -/
def isIdentStart (c : Char) : Bool := c = '_' || abc.isLetter c

def isIdentPart (c : Char) : Bool := isIdentStart abc c || c = '$' || abc.isDigit c

def identifier (text : Text) : Scanned :=
  let value := Text.string (text.takeWhile fun r => isIdentPart abc r.value)
  let rest := text.dropWhile fun r => isIdentPart abc r.value
  let name : Scanned :=
    ⟨if value = "and" then .and else if value = "or" then .or else .identifier, value, rest⟩
  if value = "datetime" then (dateTime rest).getD name else name

/-- A Dashboard filter, after its `$`. -/
def param : Text → Scanned
  | r :: rest =>
    if isIdentStart abc r.value then
      ⟨.param, Text.string ((r :: rest).takeWhile fun r => isIdentPart abc r.value),
        (r :: rest).dropWhile fun r => isIdentPart abc r.value⟩
    else ⟨.error, "expected a filter's name after $, such as $service", r :: rest⟩
  | [] => ⟨.error, "expected a filter's name after $, such as $service", []⟩

/-- A number, with an optional fraction and an optional exponent, or a timespan. -/
def number (text : Text) : Scanned :=
  let plain := exponent (fraction (digits text))
  let unit := plain.takeWhile fun r => isIdentPart abc r.value
  let rest := plain.dropWhile fun r => isIdentPart abc r.value
  let written := Text.string (before text rest)
  if unit.isEmpty then ⟨.number, written, rest⟩
  else if (timespanUnits (Text.string unit)).isSome ∧
      (before text plain).all (fun r => r.value != 'e' && r.value != 'E') = true then
    ⟨.timespan, written, rest⟩
  else ⟨.error, abc.quote written ++ " isn't a number", rest⟩

/-- The token that a text starts with. -/
def token (r : Rune) (rest : Text) : Scanned :=
  if r.value = '$' then param abc rest
  else if isIdentStart abc r.value then identifier abc (r :: rest)
  else if isDigit r.value then number abc (r :: rest)
  else if isQuote r.value then string r.value rest
  else if r.value = '[' then bracket rest
  else (symbol (r :: rest)).getD ⟨.error, "unexpected " ++ abc.quote (Text.string [r]), rest⟩

/-- The tokens of a text that starts at a place, so many at most. -/
def scanFrom : ℕ → ℕ → Text → List Token
  | 0, _, _ => []
  | n + 1, start, text =>
    match skipSpaceAndComments text with
    | [] => []
    | r :: rest =>
      let scanned := token abc r rest
      let start := start + (text.size - Text.size (r :: rest))
      let stop := start + (Text.size (r :: rest) - scanned.rest.size)
      ⟨scanned.kind, ⟨start, stop⟩, scanned.value⟩ :: scanFrom n stop scanned.rest

end Words

end Scanner

/-- A text's tokens. Each takes a byte or more. -/
def scan (abc : Alphabet) (text : Text) : List Token := Scanner.scanFrom abc text.size 0 text

end SolidTrace.LogQuery
