import SolidTrace.Lib.Positions
import SolidTrace.LogQuery.ParseQuery
import SolidTrace.LogQuery.Stages

/-!
# Where a Query's stages are

The line and column of each stage of a Query, as validate answers them, and what the others make of
them: a Monitor's check that its Query ends in a summarize, and the text that the explorer names a
stage by.
-/

namespace SolidTrace.LogQuery

section Positions

/-- The text before a byte. A character that the byte is inside of is read byte by byte. -/
def Text.upTo : ℕ → Text → Text
  | _, [] => []
  | n, r :: rest =>
    if r.bytes.length ≤ n then r :: Text.upTo (n - r.bytes.length) rest
    else (r.bytes.take n).map .broken

structure Position where
  line : ℕ
  column : ℕ
deriving DecidableEq, Repr

/-- The line and column of a byte offset. -/
def positionOf (source : String) (offset : ℤ) : Position :=
  let offset := max 0 (min offset (runes source).size)
  let (line, column) := Positions.after (1, 1) (((runes source).upTo offset.toNat).map Rune.value)
  ⟨line, column⟩

end Positions

section Stages

/-- Where one stage of a Query sits in its text, and what it is to the explorer. -/
structure StagePlace where
  line : ℕ
  column : ℕ
  endLine : ℕ
  endColumn : ℕ
  filter : Bool
  builder : Bool
deriving DecidableEq, Repr

/-- `strings.TrimLeft`. -/
def trimLeft (text : String) (cutset : List Char) : String :=
  String.ofList (text.toList.dropWhile (· ∈ cutset))

/-- The place of one stage, from its span. -/
def stagePlace (text : String) (span : Span) (filter builder : Bool) : StagePlace :=
  -- A stage's span starts at its pipe; the stage starts at its keyword.
  let written := (⟨text, id⟩ : Source).at span
  let start := span.start + (runes written).size -
    (runes (trimLeft written ['|', ' ', '\t', '\r', '\n'])).size
  let from' := positionOf text start
  let to' := positionOf text span.stop
  ⟨from'.line, from'.column, to'.line, to'.column, filter, builder⟩

/-- The place of each of a Query's stages, in order. `shown` is what the Builder can show. -/
def stagesOf (text : String) (tree : Syntax.Query) (shown : ℕ → Bool) : List StagePlace :=
  let heads := (tree.stages.takeWhile isHead).length
  tree.stages.mapIdx fun i s => stagePlace text s.span (i < heads) (shown i)

end Stages

section Monitors

/-- The characters that Ruby's regular expressions take as part of a word. -/
structure WordCharacters where
  isWord : Char → Bool
  ascii : ∀ c : Char, c.toNat < 128 → isWord c = (c.isAlphanum || c = '_')
  space : ∀ c, isSpace c = true → isWord c = false

/-- Whether a text starts with a word: `/\A…\b/`. -/
def startsWithWord (words : WordCharacters) (word : String) (text : List Char) : Bool :=
  word.toList.isPrefixOf text && ((text.drop word.length).head?.map words.isWord) != some true

/-- Whether a Query ends in a summarize or a count, by its last stage's place. -/
def endsInSummarize (words : WordCharacters) (query : String) : Option StagePlace → Bool
  | none => false
  | some stage =>
    let lines := if query = "" then [] else query.toList.splitOn '\n'
    let offset := Positions.sizeOfLines (lines.take (stage.line - 1)) + stage.column - 1
    let rest := query.toList.drop offset
    startsWithWord words "summarize" rest || startsWithWord words "count" rest

end Monitors

section Explorer

/-- A character's UTF-16 code units. -/
def utf16Char (c : Char) : List ℕ :=
  if c.toNat < 0x10000 then [c.toNat]
  else [0xD800 + (c.toNat - 0x10000) / 0x400, 0xDC00 + (c.toNat - 0x10000) % 0x400]

/-- A string's UTF-16 code units. -/
def utf16 (text : String) : List ℕ := text.toList.flatMap utf16Char

/-- The string index of a line and column. -/
def offsetOf (text : String) (line column : ℕ) : ℕ :=
  Positions.walk (fun c => (utf16Char c).length) (line, column) (1, 1) 0 text.toList

/-- `String.prototype.slice`. -/
def sliceUnits (units : List ℕ) (start stop : ℕ) : List ℕ := (units.drop start).take (stop - start)

/-- The text of a stage. -/
def QueryMode.textOf (query : String) (stage : StagePlace) : List ℕ :=
  sliceUnits (utf16 query) (offsetOf query stage.line stage.column)
    (offsetOf query stage.endLine stage.endColumn)

end Explorer

end SolidTrace.LogQuery
