import SolidTrace.Lib.Escapes

/-!
# Values in ClickHouse SQL

How a value is quoted in the text of ClickHouse SQL, as a string literal or as an identifier, and how
ClickHouse's lexer reads it. A text is its bytes.
-/

namespace SolidTrace.Chsql

section Writing

abbrev Bytes := List UInt8

def backslash : UInt8 := 92

def quote : UInt8 := 39

def backtick : UInt8 := 96

/-- What ClickHouse reads as an escape or an end inside quotes, each with what is written for it. -/
def escaper : List (UInt8 × Bytes) :=
  [(backslash, [backslash, backslash]), (quote, [backslash, quote]), (backtick, [backslash, backtick]),
    (0, [backslash, 48])]

/-- `strings.Replacer.Replace`, where each old string is one byte. -/
def replace (replacer : List (UInt8 × Bytes)) (s : Bytes) : Bytes :=
  s.flatMap fun b => (replacer.lookup b).getD [b]

/-- Quotes a text as a string literal. -/
def string (s : Bytes) : Bytes := quote :: (replace escaper s ++ [quote])

/-- Quotes a name as an identifier. -/
def identifier (name : Bytes) : Bytes := backtick :: (replace escaper name ++ [backtick])

end Writing

section Reading

/-- How ClickHouse's lexer reads quotes: what a byte stands for after a backslash, and whether a quote
written twice is one that doesn't end them. -/
structure Lexer where
  escape : UInt8 → Bytes
  doubled : Bool
  escape_backslash : escape backslash = [backslash]
  escape_quote : escape quote = [quote]
  escape_backtick : escape backtick = [backtick]
  escape_zero : escape 48 = [0]

/-- Reads what quotes hold, from past the opening one, and the text after the closing one. -/
def Lexer.quoted (lexer : Lexer) (close : UInt8) : Bytes → Option (Bytes × Bytes)
  | [] => none
  | b :: e :: rest =>
    if b = backslash then (lexer.quoted close rest).map fun (value, after) => (lexer.escape e ++ value, after)
    else if b = close then
      if lexer.doubled ∧ e = close then
        (lexer.quoted close rest).map fun (value, after) => (close :: value, after)
      else some ([], e :: rest)
    else (lexer.quoted close (e :: rest)).map fun (value, after) => (b :: value, after)
  | [b] => if b ≠ backslash ∧ b = close then some ([], []) else none

/-- Reads a literal or an identifier, by the quotes it starts with. -/
def Lexer.read (lexer : Lexer) (open' : UInt8) : Bytes → Option (Bytes × Bytes)
  | b :: rest => if b = open' then lexer.quoted open' rest else none
  | [] => none

/-- A text that doesn't take the closing quote before it for half of a doubled one. -/
def Lexer.Ends (lexer : Lexer) (close : UInt8) (rest : Bytes) : Prop :=
  lexer.doubled = true → rest.head? ≠ some close

end Reading

section Escaping

/-- The bytes written as themselves. -/
def Plain (b : UInt8) : Prop := b ≠ backslash ∧ b ≠ quote ∧ b ≠ backtick ∧ b ≠ 0

/-- What a byte stands for after a backslash in what is written. -/
def Names (e b : UInt8) : Prop :=
  e = backslash ∧ b = backslash ∨ e = quote ∧ b = quote ∨ e = backtick ∧ b = backtick ∨ e = 48 ∧ b = 0

/-- The escaper writes each byte as itself or by its name. -/
theorem written_replace (s : Bytes) : Escapes.Written backslash Plain Names s (replace escaper s) := by
  apply Escapes.Written.flatMap
  intro b
  by_cases hbackslash : b = backslash
  · subst hbackslash
    exact .inr ⟨backslash, .inl ⟨rfl, rfl⟩, rfl⟩
  by_cases hquote : b = quote
  · subst hquote
    exact .inr ⟨quote, .inr (.inl ⟨rfl, rfl⟩), rfl⟩
  by_cases hbacktick : b = backtick
  · subst hbacktick
    exact .inr ⟨backtick, .inr (.inr (.inl ⟨rfl, rfl⟩)), rfl⟩
  by_cases hzero : b = 0
  · subst hzero
    exact .inr ⟨48, .inr (.inr (.inr ⟨rfl, rfl⟩)), rfl⟩
  refine .inl ⟨⟨hbackslash, hquote, hbacktick, hzero⟩, ?_⟩
  have hlookup : escaper.lookup b = none := by
    rw [List.lookup_eq_none_iff]
    simp [escaper, hbackslash, hquote, hbacktick, hzero]
  rw [hlookup, Option.getD_none]

/-- The lexer reads a name as the byte it names. -/
theorem Lexer.escape_names (lexer : Lexer) {e b : UInt8} (h : Names e b) : lexer.escape e = [b] := by
  rcases h with ⟨rfl, rfl⟩ | ⟨rfl, rfl⟩ | ⟨rfl, rfl⟩ | ⟨rfl, rfl⟩
  · exact lexer.escape_backslash
  · exact lexer.escape_quote
  · exact lexer.escape_backtick
  · exact lexer.escape_zero

/-- What is written is read back up to the closing quote. -/
theorem Lexer.quoted_written (lexer : Lexer) {close : UInt8} (hplain : ¬ Plain close)
    (hclose : close ≠ backslash) {s body rest : Bytes} (h : Escapes.Written backslash Plain Names s body)
    (hrest : lexer.Ends close rest) : lexer.quoted close (body ++ close :: rest) = some (s, rest) := by
  induction h with
  | nil =>
    cases rest with
    | nil => simp [quoted, hclose]
    | cons c rest =>
      have hnot : ¬ (lexer.doubled = true ∧ c = close) := by
        rintro ⟨hdoubled, rfl⟩
        exact hrest hdoubled rfl
      simp [quoted, hclose, hnot]
  | @plain b s body hb h ih =>
    have hne : b ≠ close := by
      rintro rfl
      exact hplain hb
    obtain ⟨c, more, hmore⟩ := List.exists_cons_of_ne_nil
      (List.append_ne_nil_of_right_ne_nil body (List.cons_ne_nil close rest))
    rw [hmore] at ih
    rw [List.cons_append, hmore, quoted, if_neg hb.1, if_neg hne, ih, Option.map_some]
  | @escaped b e s body he h ih =>
    rw [List.cons_append, List.cons_append, quoted, if_pos rfl, ih, Option.map_some, lexer.escape_names he]
    rfl

end Escaping

/-- A string's literal is read as the string, and a name's identifier as the name, and no closing quote
stands unescaped in either. -/
theorem quoted_exact (lexer : Lexer) (s : Bytes) :
    (∀ rest, lexer.Ends quote rest → lexer.read quote (string s ++ rest) = some (s, rest)) ∧
      (∀ rest, lexer.Ends backtick rest → lexer.read backtick (identifier s ++ rest) = some (s, rest)) ∧
      Escapes.Closed backslash quote (replace escaper s) ∧
      Escapes.Closed backslash backtick (replace escaper s) := by
  have hquote : ¬ Plain quote := fun h => h.2.1 rfl
  have hbacktick : ¬ Plain backtick := fun h => h.2.2.1 rfl
  have hbackslash : ¬ Plain backslash := fun h => h.1 rfl
  have hwritten := written_replace s
  refine ⟨fun rest hrest => ?_, fun rest hrest => ?_, ?_, ?_⟩
  · rw [string, List.cons_append, List.append_assoc, List.singleton_append, Lexer.read, if_pos rfl]
    exact lexer.quoted_written hquote (by decide) hwritten hrest
  · rw [identifier, List.cons_append, List.append_assoc, List.singleton_append, Lexer.read, if_pos rfl]
    exact lexer.quoted_written hbacktick (by decide) hwritten hrest
  · exact hwritten.closed hbackslash hquote (by decide)
  · exact hwritten.closed hbackslash hbacktick (by decide)

/-- ClickHouse's escapes but for `\x`, which takes two more bytes. -/
def clickHouse : Lexer where
  escape e :=
    (([(98, [8]), (102, [12]), (110, [10]), (114, [13]), (116, [9]), (97, [7]), (118, [11]), (101, [27]),
      (48, [0]), (78, [])] : List (UInt8 × Bytes)).lookup e).getD [e]
  doubled := true
  escape_backslash := rfl
  escape_quote := rfl
  escape_backtick := rfl
  escape_zero := rfl

/-- A text that ends in a backslash, with a quote and a NUL before it, is read up to its own quote. -/
theorem quoted_exact_clickHouse :
    clickHouse.read quote (string [quote, 0, backslash] ++ [41]) = some ([quote, 0, backslash], [41]) :=
  (quoted_exact clickHouse [quote, 0, backslash]).1 [41] fun _ => by decide

end SolidTrace.Chsql
