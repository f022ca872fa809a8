import SolidTrace.Lib.FormEncoding
import SolidTrace.Lib.IsoTime

/-!
# The Logs explorer's state and its URL

The explorer holds what last ran, which its URL's search says, and what is being edited. The search
holds the time range as given, the mode, the Query's text, the SQL text, and the chart a table is drawn
as.
-/

namespace SolidTrace.LogsExplorer

section TimeRanges

/-- A time that a browser's Date can hold, in milliseconds since 1970. -/
structure Date where
  ms : ℤ
  low : -8640000000000000 ≤ ms
  high : ms ≤ 8640000000000000
deriving DecidableEq

def Date.toISOString (t : Date) : String := .ofList (IsoTime.write t.ms)

/-- What a browser reads a text as a time by. How it reads other texts than it writes is up to it. -/
structure DateReader where
  read : String → Option Date
  read_toISOString : ∀ t : Date, read t.toISOString = some t

/-- A span back from now, or two times. -/
inductive TimeRange where
  | relative (span : String)
  | absolute (start stop : Date)
deriving DecidableEq

def isDigit (c : Char) : Bool := (Digits.decimal c).isSome

/-- The number and the unit of a span: digits and one letter of `m`, `h` and `d`. -/
def matchSpan (span : String) : Option (ℕ × ℕ) :=
  let digits := (span.toList.takeWhile isDigit).filterMap Digits.decimal
  if digits = [] then none
  else match span.toList.dropWhile isDigit with
    | ['m'] => some (Digits.value 10 digits, 60000)
    | ['h'] => some (Digits.value 10 digits, 3600000)
    | ['d'] => some (Digits.value 10 digits, 86400000)
    | _ => none

/-- A span's length in milliseconds; 0 for text that isn't one. -/
def spanMs (span : String) : ℕ :=
  match matchSpan span with
  | some (n, unit) => n * unit
  | none => 0

def maxMs : ℕ := 10 * 365 * 86400000

/-- Whether a text is a span a link can hold: above 0, ten years at most. -/
def isSpan (span : String) : Bool :=
  (matchSpan span).isSome && 0 < spanMs span && spanMs span ≤ maxMs

def defaultRange : TimeRange := .relative "1h"

/-- The ranges that can be picked. -/
def TimeRange.Valid : TimeRange → Prop
  | .relative span => isSpan span = true
  | .absolute start stop => start.ms ≤ stop.ms

instance : DecidablePred TimeRange.Valid
  | .relative span => inferInstanceAs (Decidable (isSpan span = true))
  | .absolute start stop => inferInstanceAs (Decidable (start.ms ≤ stop.ms))

end TimeRanges

section SearchParams

/-- A URL's search as names and values, the first of a name its value. -/
abbrev URLSearchParams := FormEncoding.Pairs

namespace URLSearchParams

def ofSearch (search : String) : URLSearchParams :=
  match search.toList with
  | '?' :: rest => FormEncoding.parse (.ofList rest)
  | _ => FormEncoding.parse search

def get (params : URLSearchParams) (name : String) : Option String :=
  (params.find? (·.1 == name)).map Prod.snd

/-- The params with one value of a name, in the place of its first. -/
def set (name value : String) : URLSearchParams → URLSearchParams
  | [] => [(name, value)]
  | pair :: rest =>
    if pair.1 = name then (name, value) :: rest.filter (·.1 ≠ name) else pair :: set name value rest

/-- A parameter that is set is read. -/
theorem get_set (name value : String) (params : URLSearchParams) :
    get (set name value params) name = some value := by
  induction params with
  | nil => simp [set, get]
  | cons pair rest ih =>
    unfold set
    split
    · simp [get]
    next h => simpa [get, h] using ih

/-- Setting a parameter leaves the others. -/
theorem get_set_of_ne {name other : String} (h : other ≠ name) (value : String)
    (params : URLSearchParams) : get (set name value params) other = get params other := by
  induction params with
  | nil => simp [set, get, Ne.symm h]
  | cons pair rest ih =>
    have hfilter : (rest.filter (·.1 ≠ name)).find? (·.1 == other) = rest.find? (·.1 == other) := by
      rw [List.find?_filter]
      congr 1
      funext p
      by_cases hp : p.1 = other
      · simp [hp, h]
      · simp [hp]
    unfold set
    split
    next hname =>
      have hne : (pair.1 == other) = false := by simpa [hname] using Ne.symm h
      have hne' : (name == other) = false := by simpa using Ne.symm h
      simp only [get, List.find?_cons, hne, hne', hfilter]
    next hname =>
      by_cases hother : pair.1 = other
      · simp [get, hother]
      · simpa [get, hother] using ih

end URLSearchParams

end SearchParams

section States

inductive Mode where
  | builder
  | query
  | sql
deriving DecidableEq, Repr

def Mode.text : Mode → String
  | .builder => "builder"
  | .query => "query"
  | .sql => "sql"

/-- The modes, in the switch's order. -/
def modes : List Mode := [.builder, .query, .sql]

/-- How a table that can be charted is shown. -/
inductive Viz where
  | auto
  | line
  | area
  | bars
  | table
deriving DecidableEq, Repr

def Viz.text : Viz → String
  | .auto => "auto"
  | .line => "line"
  | .area => "area"
  | .bars => "bars"
  | .table => "table"

def vizes : List Viz := [.auto, .line, .area, .bars, .table]

/-- What the explorer shows. Its texts have no surrogate without the other half of its pair, which a browser's
text may have and `URLSearchParams` writes as the replacement character. -/
structure ExplorerState where
  range : TimeRange
  mode : Mode
  query : String
  /-- The SQL text, in SQL mode; empty in the others. -/
  sql : String
  viz : Viz
deriving DecidableEq

/-- What last ran (and is in the URL), and what is being edited. -/
structure Explorer where
  current : ExplorerState
  draft : ExplorerState
deriving DecidableEq

end States

section Search

def rangeFromParams (dates : DateReader) (params : URLSearchParams) : TimeRange :=
  match params.get "range" with
  | some span => if isSpan span then .relative span else defaultRange
  | none =>
    match (params.get "from").bind dates.read, (params.get "to").bind dates.read with
    | some start, some stop => if start.ms > stop.ms then defaultRange else .absolute start stop
    | _, _ => defaultRange

/-- A URL's state; a mode that is not offered opens the Builder. -/
def stateFromSearch (dates : DateReader) (search : String) (modes : List Mode) : ExplorerState :=
  let params := URLSearchParams.ofSearch search
  let mode := ((params.get "mode").bind fun given => modes.find? (·.text == given)).getD .builder
  { range := rangeFromParams dates params
    mode
    query := (params.get "q").getD ""
    sql := if mode = .sql then (params.get "sql").getD "" else ""
    viz := ((params.get "viz").bind fun viz => vizes.find? (·.text == viz)).getD .auto }

def paramsOf (state : ExplorerState) : URLSearchParams :=
  let params := match state.range with
    | .relative span => .set "range" span []
    | .absolute start stop => .set "to" stop.toISOString (.set "from" start.toISOString [])
  let params := .set "mode" state.mode.text params
  let params := if state.query ≠ "" then .set "q" state.query params else params
  let params := if state.sql ≠ "" then .set "sql" state.sql params else params
  if state.viz ≠ .auto then .set "viz" state.viz.text params else params

def searchOf (state : ExplorerState) : String := "?" ++ FormEncoding.serialize (paramsOf state)

end Search

section Operations

def openExplorer (dates : DateReader) (search : String) (modes : List Mode) : Explorer :=
  let state := stateFromSearch dates search modes
  ⟨state, state⟩

def typeQuery (explorer : Explorer) (query : String) : Explorer :=
  { explorer with draft := { explorer.draft with query } }

def typeSql (explorer : Explorer) (sql : String) : Explorer :=
  { explorer with draft := { explorer.draft with sql } }

def pickRange (explorer : Explorer) (range : TimeRange) : Explorer :=
  { explorer with draft := { explorer.draft with range } }

/-- The draft once the explorer is in `current`'s mode without a run. In the Builder, which shows what
ran, its Query goes back to that. -/
def draftIn (draft current : ExplorerState) : ExplorerState :=
  if current.mode = .builder then { draft with mode := current.mode, query := current.query }
  else { draft with mode := current.mode }

/-- Switch mode without running, and the search to put in place of the current history entry's. -/
def switchMode (explorer : Explorer) (mode : Mode) : Explorer × String :=
  let current := { explorer.current with mode }
  (⟨current, draftIn explorer.draft current⟩, searchOf current)

/-- The Builder with the Query it shows and a range, ready to run. -/
def inBuilder (explorer : Explorer) (query : String) (range : TimeRange) : Explorer :=
  let next := (switchMode explorer .builder).1
  { next with draft := { next.draft with query, range } }

/-- Draw tables another way, without running, and the search to put in place of the current history
entry's. -/
def chooseViz (explorer : Explorer) (viz : Viz) : Explorer × String :=
  let current := { explorer.current with viz }
  (⟨current, { explorer.draft with viz }⟩, searchOf current)

/-- Query mode shows an empty Query as the Project's slug alone, which is no edit. -/
def fillEmptyQuery (explorer : Explorer) (projectQuery : String) : Explorer :=
  let fill := fun state : ExplorerState =>
    if state.mode = .query ∧ state.query = "" then { state with query := projectQuery } else state
  ⟨fill explorer.current, fill explorer.draft⟩

/-- Run the draft, and the search to push as a new history entry, if the run changes the URL. -/
def runExplorer (explorer : Explorer) : Explorer × Option String :=
  let search := searchOf explorer.draft
  let push := if search = searchOf explorer.current then none else some search
  (⟨explorer.draft, explorer.draft⟩, push)

end Operations

end SolidTrace.LogsExplorer
