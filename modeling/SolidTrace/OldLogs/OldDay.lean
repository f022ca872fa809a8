import Mathlib.Data.List.AList
import SolidTrace.LogQuery.Filter

/-!
# A day of old Log files

How the Log files of a day from before the logs table keep a Log, the row that the logs table keeps of
it, and where a Query's head finds each Field in either.
-/

namespace SolidTrace.OldLogs

open LogQuery

section Logs

/-- A map by name. -/
abbrev NamedMap (V : Type) := AList fun _ : String => V

/-- A Log's Attributes, one map for each type of value. -/
structure Attributes where
  string : NamedMap String
  number : NamedMap ℚ
  bool : NamedMap Bool
  /-- Arrays and objects as JSON text. -/
  json : NamedMap String

/-- A Log as it is read, its time in microseconds. -/
structure LogData where
  id : ℕ
  time : ℤ
  level : String
  message : String
  service : String
  environment : String
  traceID : String
  spanID : String
  attributes : Attributes

/-- A Log. A name is in at most one of the maps. -/
structure Log extends LogData where
  apart : ∀ name, (name ∈ attributes.string → name ∉ attributes.number ∧ name ∉ attributes.bool) ∧
    (name ∈ attributes.number → name ∉ attributes.bool)

/-- The Attributes of a type as values. -/
def Attributes.valueOf (a : Attributes) : AttributeType → String → Option Value
  | .string, key => (a.string.lookup key).map .string
  | .number, key => (a.number.lookup key).map .number
  | .bool, key => (a.bool.lookup key).map .bool
  | .json, key => (a.json.lookup key).map .string

/-- A map's names and what each has. -/
def entriesOf {V W : Type} (f : V → W) (m : NamedMap V) : List (String × W) :=
  m.entries.map fun entry => (entry.1, f entry.2)

def nullIfEmptyString (s : String) : Option String := if s = "" then none else some s

/-- The values of string Attributes, by name. -/
def sortedValues (m : NamedMap String) : List String :=
  ((entriesOf id m).mergeSort fun a b => decide (a.1 ≤ b.1)).map Prod.snd

/-- What separates the texts that search reads together. -/
def separator : String := "\x00"

/-- A Log's row in the logs table. -/
def logRow (projectID batch : ℕ) (log : Log) : Sql.Row
  | "project_id" => some (.number projectID)
  | "id" => some (.uuid log.id)
  | "time" => some (.time log.time)
  | "level" => (nullIfEmptyString log.level).map .string
  | "service" => some (.string log.service)
  | "environment" => (nullIfEmptyString log.environment).map .string
  | "message" => some (.string log.message)
  | "trace_id" => (nullIfEmptyString log.traceID).map .string
  | "span_id" => (nullIfEmptyString log.spanID).map .string
  | "batch" => some (.uuid batch)
  | "file" => some (.string ((log.attributes.string.lookup "file").getD ""))
  -- A path that is set again has the last value.
  | "attributes" => some (.attributes (entriesOf .bool log.attributes.bool ++
      entriesOf .number log.attributes.number ++ entriesOf .string log.attributes.string))
  | "attrs_json" => some (.map (entriesOf id log.attributes.json))
  | "search_text" => some (.string (separator.intercalate (sortedValues log.attributes.string)))
  | _ => none

end Logs

section OldDay

/-- An Attribute key promoted on a day: its values are in `column` of that day's files, and when
`partway`, in its map too. -/
structure PromotedKey where
  typ : AttributeType
  key : String
  column : String
  partway : Bool

/-- The columns of every old Log file. -/
def fixedColumns : List String :=
  ["id", "time", "level", "message", "service", "environment", "trace_id", "span_id", "batch",
    "attrs_string", "attrs_number", "attrs_bool", "attrs_json"]

/-- How a day's old files keep each Field. A promoted column is none of the fixed ones. -/
structure OldDay where
  set : List PromotedKey
  apart : ∀ promoted ∈ set, promoted.column ∉ fixedColumns

/-- The promoted keys of a type. -/
def OldDay.promotedOf (d : OldDay) (t : AttributeType) : List PromotedKey :=
  d.set.filter fun promoted => promoted.typ = t

def mapColumn (t : AttributeType) : Sql := .column none ("attrs_" ++ t.text)

/-- `ifNull(x, '')`. -/
def ifNullEmpty (x : Sql) : Sql := .fn .coalesce [x, .text ""]

namespace OldDay

variable (d : OldDay)

def builtIn (name : String) : Sql :=
  if name = "service" ∨ name = "message" then ifNullEmpty (.column none name) else .column none name

def attributeOf (t : AttributeType) (key : String) : Sql :=
  if t = .json then jsonAttribute (.column none "attrs_json") key
  else
    let inMap := jsonAttribute (mapColumn t) key
    match d.set.find? fun promoted => promoted.typ = t ∧ promoted.key = key with
    | some promoted =>
      if promoted.partway then .fn .coalesce [.column none promoted.column, inMap]
      else .column none promoted.column
    | none => inMap

/-- Every string Attribute's value, joined by the separator: the map's and the promoted columns'. -/
def searchText : Sql :=
  .fn .concatWithSeparator (.text separator ::
    .fn .arrayStringConcat [.fn .mapValues [.column none "attrs_string"], .text separator] ::
      (d.promotedOf .string).map fun promoted => ifNullEmpty (.column none promoted.column))

/-- Where the day's files keep each Field. -/
def columns : Columns where
  column name := .column none name
  builtIn := builtIn
  attributeOf := d.attributeOf
  -- No column holds file.
  stringColumn _ := none
  searchText := d.searchText

end OldDay

/-- The conditions of a read of a day's files: some of the read's own, and both parts of a filter. -/
def oldWhere (conditions : List Sql) (filter : Filter) : List Sql :=
  conditions ++ filter.rest.toList ++ filter.message.toList

end OldDay

section Rows

/-- A row of an old Log file. -/
structure OldRow where
  id : ℕ
  time : ℤ
  level : Option String
  message : Option String
  service : Option String
  environment : Option String
  traceID : Option String
  spanID : Option String
  batch : Option ℕ
  string : NamedMap String
  number : NamedMap ℚ
  bool : NamedMap Bool
  json : NamedMap String
  promoted : String → Option AttributeValue

def attributeValue : AttributeValue → Value
  | .string s => .string s
  | .number n => .number n
  | .bool b => .bool b

/-- The row's columns. A map of numbers or of bools is the typed values by name. -/
def OldRow.columns (row : OldRow) : Sql.Row
  | "id" => some (.uuid row.id)
  | "time" => some (.time row.time)
  | "level" => row.level.map .string
  | "message" => row.message.map .string
  | "service" => row.service.map .string
  | "environment" => row.environment.map .string
  | "trace_id" => row.traceID.map .string
  | "span_id" => row.spanID.map .string
  | "batch" => row.batch.map .uuid
  | "attrs_string" => some (.map (entriesOf (fun s => s) row.string))
  | "attrs_number" => some (.attributes (entriesOf .number row.number))
  | "attrs_bool" => some (.attributes (entriesOf .bool row.bool))
  | "attrs_json" => some (.map (entriesOf (fun s => s) row.json))
  | name => (row.promoted name).map attributeValue

/-- The columns that old Logs are read whole with: the fixed ones, and the day's promoted keys and values
of each type as arrays. -/
structure WholeRow where
  id : ℕ
  time : ℤ
  level : Option String
  message : String
  service : String
  environment : Option String
  traceID : Option String
  spanID : Option String
  string : NamedMap String
  number : NamedMap ℚ
  bool : NamedMap Bool
  json : NamedMap String
  stringKeys : List String
  stringValues : List (Option String)
  numberKeys : List String
  numberValues : List (Option ℚ)
  boolKeys : List String
  boolValues : List (Option Bool)

def asString : AttributeValue → Option String
  | .string s => some s
  | _ => none

def asNumber : AttributeValue → Option ℚ
  | .number n => some n
  | _ => none

def asBool : AttributeValue → Option Bool
  | .bool b => some b
  | _ => none

/-- The promoted columns of a type, each value read as that type. -/
def promotedValues {V : Type} (read : AttributeValue → Option V) (row : OldRow)
    (promoted : List PromotedKey) : List (Option V) :=
  promoted.map fun key => (row.promoted key.column).bind read

def OldDay.logColumns (d : OldDay) (row : OldRow) : WholeRow where
  id := row.id
  time := row.time
  level := row.level
  message := row.message.getD ""
  service := row.service.getD ""
  environment := row.environment
  traceID := row.traceID
  spanID := row.spanID
  string := row.string
  number := row.number
  bool := row.bool
  json := row.json
  stringKeys := (d.promotedOf .string).map PromotedKey.key
  stringValues := promotedValues asString row (d.promotedOf .string)
  numberKeys := (d.promotedOf .number).map PromotedKey.key
  numberValues := promotedValues asNumber row (d.promotedOf .number)
  boolKeys := (d.promotedOf .bool).map PromotedKey.key
  boolValues := promotedValues asBool row (d.promotedOf .bool)

/-- A map with each key whose promoted column has a value set to it. -/
def setPromoted {V : Type} (m : NamedMap V) : List String → List (Option V) → NamedMap V
  | key :: keys, value :: values =>
    setPromoted (match value with | some v => m.insert key v | none => m) keys values
  | _, _ => m

/-- A row read whole as a Log: a promoted column's value where it has one, else the map's. -/
def scanOldLog (row : WholeRow) : LogData where
  id := row.id
  time := row.time
  level := row.level.getD ""
  message := row.message
  service := row.service
  environment := row.environment.getD ""
  traceID := row.traceID.getD ""
  spanID := row.spanID.getD ""
  attributes :=
    { string := setPromoted row.string row.stringKeys row.stringValues
      number := setPromoted row.number row.numberKeys row.numberValues
      bool := setPromoted row.bool row.boolKeys row.boolValues
      json := row.json }

end Rows

section Placement

/-- How a Log's values of a type may lie in a row: a key promoted for the whole day in its column only, one
promoted partway in its column or in its map, any other in its map. -/
structure Places {V : Type} (d : OldDay) (row : OldRow) (t : AttributeType) (value : V → AttributeValue)
    (values inMap : NamedMap V) : Prop where
  whole : ∀ p ∈ d.promotedOf t, p.partway = false →
    row.promoted p.column = (values.lookup p.key).map value ∧ inMap.lookup p.key = none
  partway : ∀ p ∈ d.promotedOf t, p.partway = true →
    (row.promoted p.column = (values.lookup p.key).map value ∧
      (inMap.lookup p.key = none ∨ inMap.lookup p.key = values.lookup p.key)) ∨
    (row.promoted p.column = none ∧ inMap.lookup p.key = values.lookup p.key)
  others : ∀ key, (∀ p ∈ d.promotedOf t, p.key ≠ key) → inMap.lookup key = values.lookup key

/-- A way that a Log may lie in a day's old file. -/
structure LiesIn (d : OldDay) (log : Log) (row : OldRow) : Prop where
  id : row.id = log.id
  time : row.time = log.time
  level : row.level = nullIfEmptyString log.level
  message : row.message.getD "" = log.message
  service : row.service.getD "" = log.service
  environment : row.environment = nullIfEmptyString log.environment
  traceID : row.traceID = nullIfEmptyString log.traceID
  spanID : row.spanID = nullIfEmptyString log.spanID
  string : Places d row .string .string log.attributes.string row.string
  number : Places d row .number .number log.attributes.number row.number
  bool : Places d row .bool .bool log.attributes.bool row.bool
  json : ∀ key, row.json.lookup key = log.attributes.json.lookup key

end Placement

end SolidTrace.OldLogs
