import Mathlib.Data.List.Sort
import SolidTrace.Normalise.Fields

/-!
# Normalised Logs

A Log as it was sent becomes its built-in fields and typed Attributes: `JSON` for what a sender sent,
`Transformed` for what a Log transform returned. The limits cut strings, drop Attributes and, past the
size of a Log, drop the Log.
-/

namespace SolidTrace.Normalise

/-- What normalising did to a Log. -/
inductive Outcome where
  | kept
  | truncated
  | dropped
deriving DecidableEq, Repr

def maxStringBytes : ℕ := 64 * 1024

def maxNameBytes : ℕ := 256

def maxAttributes : ℕ := 1000

def maxLogBytes : ℕ := 1024 * 1024

/-- A Log's built-in fields. -/
inductive Field where
  | timeField
  | level
  | message
  | service
  | environment
  | traceID
  | spanID
deriving DecidableEq, Repr

def Field.all : List Field := [timeField, level, message, service, environment, traceID, spanID]

/-- The built-in fields' names, as an `original.<field>` Attribute uses them. -/
def names : Field → Bytes
  | .timeField => Utf8.bytes "time"
  | .level => Utf8.bytes "level"
  | .message => Utf8.bytes "message"
  | .service => Utf8.bytes "service"
  | .environment => Utf8.bytes "environment"
  | .traceID => Utf8.bytes "trace_id"
  | .spanID => Utf8.bytes "span_id"

/-- The names a JSON Log's built-in fields are read from, best first. -/
def jsonAliases : Field → List Bytes
  | .timeField => ["time", "timestamp", "ts", "@timestamp", "_time"].map Utf8.bytes
  | .level => ["level", "severity", "lvl", "log.level"].map Utf8.bytes
  | .message => ["message", "msg", "log", "body"].map Utf8.bytes
  | .service => ["service", "service.name"].map Utf8.bytes
  | .environment => ["environment", "env", "deployment.environment"].map Utf8.bytes
  | .traceID => ["trace_id", "traceId"].map Utf8.bytes
  | .spanID => ["span_id", "spanId"].map Utf8.bytes

/-- Each built-in field under its own name alone. -/
def ownNames (f : Field) : List Bytes := [names f]

/-- A Log as its sender sent it. -/
structure Sent where
  fields : Field → Option Bytes
  attributes : Object

/-- A Log's Attributes, one map for each type of value. -/
structure Attributes (D : Type) where
  string : AList fun _ : Bytes => Bytes
  number : AList fun _ : Bytes => D
  bool : AList fun _ : Bytes => Bool
  json : AList fun _ : Bytes => Bytes

/-- A normalised Log. -/
structure Log (D : Type) where
  time : ℤ
  level : Bytes
  message : Bytes
  service : Bytes
  environment : Bytes
  traceID : Bytes
  spanID : Bytes
  attributes : Attributes D

/-- One Log being built, and whether a limit cut it. -/
structure Normaliser (D : Type) where
  log : Log D
  truncated : Bool

variable {D : Type}

def Attributes.none : Attributes D := ⟨∅, ∅, ∅, ∅⟩

def Log.none : Log D := ⟨0, [], [], [], [], [], [], .none⟩

section Attributes

def reservedPrefix : Bytes := Utf8.bytes "solidtrace."

/-- Marks a Log that a limit cut. -/
def truncatedAttribute : Bytes := reservedPrefix ++ Utf8.bytes "truncated"

def original : Bytes := Utf8.bytes "original."

/-- A sender's Attribute out of the reserved names. -/
def unreserved (name : Bytes) : Bytes :=
  if reservedPrefix.isPrefixOf name then original ++ name else name

/-- Cut a string to `maxStringBytes` without splitting a character. -/
def cutText (s : Bytes) : Bytes :=
  if s.length ≤ maxStringBytes then s else s.take (Utf8.boundary s maxStringBytes)

def Normaliser.cut (n : Normaliser D) (s : Bytes) : Normaliser D × Bytes :=
  if s.length ≤ maxStringBytes then (n, s) else ({ n with truncated := true }, cutText s)

/-- A JSON number as a DOUBLE, unless a DOUBLE can't hold it. -/
def double (lib : Library D) (number : Bytes) : Option D :=
  let digits := (if number.head? = some 45 then number.tail else number).length
  if digits > 15 ∧ ¬number.any (fun b => b = dot ∨ b = 101 ∨ b = 69) then
    if digits > 309 then Option.none else lib.wholeFloat number
  else lib.parseFloat number

def deleteAttribute (attrs : Attributes D) (name : Bytes) : Attributes D where
  string := attrs.string.erase name
  number := attrs.number.erase name
  bool := attrs.bool.erase name
  json := attrs.json.erase name

def Normaliser.withAttributes (n : Normaliser D) (attrs : Attributes D) : Normaliser D :=
  { n with log := { n.log with attributes := attrs } }

/-- Set a string Attribute, cut. -/
def Normaliser.setString (n : Normaliser D) (name s : Bytes) : Normaliser D :=
  let (n, s) := n.cut s
  n.withAttributes { n.log.attributes with string := n.log.attributes.string.insert name s }

/-- Set an Attribute to a JSON value, in the map of the value's type. -/
def Normaliser.setAttribute (lib : Library D) (n : Normaliser D) (name raw : Bytes) : Normaliser D :=
  let raw := trimSpace raw
  if raw = [] ∨ isNull raw then n
  else if name.length > maxNameBytes then { n with truncated := true }
  else
    let n := n.withAttributes (deleteAttribute n.log.attributes name)
    let attrs := n.log.attributes
    match raw.head? with
    | some 34 =>
      match parseString lib raw with
      | some s => n.setString name s
      | Option.none => n
    | some 116 => n.withAttributes { attrs with bool := attrs.bool.insert name true }
    | some 102 => n.withAttributes { attrs with bool := attrs.bool.insert name false }
    | some 91 | some 123 =>
      match lib.compact raw with
      | some compact => n.withAttributes { attrs with json := attrs.json.insert name compact }
      | Option.none => n
    | _ =>
      match double lib raw with
      | some d => n.withAttributes { attrs with number := attrs.number.insert name d }
      | Option.none => n.setString name raw

def Attributes.names (attrs : Attributes D) : List Bytes :=
  attrs.string.keys ++ attrs.number.keys ++ attrs.bool.keys ++ attrs.json.keys

/-- Keep the first `maxAttributes` Attributes in the order of names. -/
def Normaliser.limitAttributes (n : Normaliser D) : Normaliser D :=
  let attrs := n.log.attributes
  let count := attrs.string.keys.length + attrs.number.keys.length + attrs.bool.keys.length + attrs.json.keys.length
  if count ≤ maxAttributes then n
  else
    let names := attrs.names.insertionSort (· ≤ ·)
    { n with truncated := true }.withAttributes ((names.drop maxAttributes).foldl deleteAttribute attrs)

/-- About how many bytes a Log holds. -/
def size (log : Log D) : ℕ :=
  log.level.length + log.message.length + log.service.length + log.environment.length + log.traceID.length +
    log.spanID.length +
    (log.attributes.string.entries.map fun e => e.1.length + e.2.length).sum +
    (log.attributes.number.entries.map fun e => e.1.length + 8).sum +
    (log.attributes.bool.entries.map fun e => e.1.length + 1).sum +
    (log.attributes.json.entries.map fun e => e.1.length + e.2.length).sum

end Attributes

section Model

variable (lib : Library D)

/-- Read what was sent for a field: a value that can't fill it becomes `original.<field>`. -/
def Normaliser.fill (n : Normaliser D) (s : Sent) (f : Field) (parse : Bytes → Option Bytes) :
    Normaliser D × Bytes :=
  match s.fields f with
  | Option.none => (n, [])
  | some raw =>
    match parse raw with
    | some value => n.cut value
    | Option.none => (n.setAttribute lib (original ++ names f) raw).cut []

/-- The sender's own Attributes, in the order of their names. -/
def Normaliser.setAttributes (n : Normaliser D) (attributes : Object) : Normaliser D :=
  (attributes.keys.insertionSort (· ≤ ·)).foldl (fun n name =>
    match attributes.lookup name with
    | some raw => n.setAttribute lib (unreserved name) raw
    | Option.none => n) n

/-- Fill the built-in fields, one after another. -/
def Normaliser.fillFields (n : Normaliser D) (s : Sent) (r : Receipt) : Normaliser D :=
  let (n, level) := n.fill lib s .level (parseLevel lib)
  let n := { n with log := { n.log with level } }
  let (n, message) := n.fill lib s .message (parseString lib)
  let n := { n with log := { n.log with message } }
  let (n, service) := n.fill lib s .service (parseString lib)
  let n := { n with log := { n.log with service } }
  let (n, environment) := n.fill lib s .environment (parseString lib)
  let n := { n with log := { n.log with environment } }
  let (n, traceID) := n.fill lib s .traceID (hexID lib 32)
  let n := { n with log := { n.log with traceID } }
  let (n, spanID) := n.fill lib s .spanID (hexID lib 16)
  let n := { n with log := { n.log with spanID } }
  let n := { n with log := { n.log with time := r.at' } }
  match s.fields .timeField with
  | Option.none => n
  | some raw =>
    match (parseTime lib raw).filter r.inWindow with
    | some t => { n with log := { n.log with time := t } }
    | Option.none => n.setAttribute lib (original ++ names .timeField) raw

/-- The Log's fields and Attributes before it is measured. -/
def normaliserOf (s : Sent) (r : Receipt) : Normaliser D :=
  (((⟨.none, false⟩ : Normaliser D).setAttributes lib s.attributes).fillFields lib s r).limitAttributes

def normaliseSent (s : Sent) (r : Receipt) : Log D × Outcome :=
  let n := normaliserOf lib s r
  if size n.log > maxLogBytes then (.none, .dropped)
  else if n.truncated then
    let attrs := n.log.attributes
    ({ n.log with attributes := { attrs with bool := attrs.bool.insert truncatedAttribute true } }, .truncated)
  else (n.log, .kept)

/-- Fill a field from the first of its aliases that is present, and consume it. -/
def Sent.pick (aliases : Field → List Bytes) (s : Sent) (f : Field) : Sent :=
  match (aliases f).find? (· ∈ s.attributes) with
  | some name => ⟨Function.update s.fields f (s.attributes.lookup name), s.attributes.erase name⟩
  | Option.none => s

/-- A JSON object's values, its built-in fields picked out. -/
def sentOf (order : IterationOrder) (object : Object) (aliases : Field → List Bytes) : Sent :=
  Field.all.foldl (Sent.pick aliases) ⟨fun _ => Option.none, flatten lib.unmarshalObject order object⟩

def normaliseObject (order : IterationOrder) (object : Object) (aliases : Field → List Bytes) (r : Receipt) :
    Log D × Outcome :=
  normaliseSent lib (sentOf lib order object aliases) r

/-- Normalise one JSON object a sender sent as a Log. -/
def JSON (order : IterationOrder) (object : Object) (r : Receipt) : Log D × Outcome :=
  normaliseObject lib order object jsonAliases r

/-- Encode the values a Log transform returned. -/
def marshalAll {V E : Type} (marshal : V → Except E Bytes) (object : List (Bytes × V)) : Except (Bytes × E) Object :=
  object.foldlM (fun raw entry =>
    match marshal entry.2 with
    | .ok b => .ok (raw.insert entry.1 b)
    | .error err => .error (entry.1, err)) ∅

/-- Normalise the object a Log transform returned for a Log, given in the order it is visited. A value that
JSON can't hold is an error that names it. -/
def Transformed {V E : Type} (marshal : V → Except E Bytes) (order : IterationOrder) (object : List (Bytes × V))
    (r : Receipt) : Except (Bytes × E) (Log D × Outcome) := do
  let raw ← marshalAll marshal object
  return normaliseObject lib order raw ownNames r

end Model

end SolidTrace.Normalise
