import Mathlib.Data.Rat.Floor
import SolidTrace.Lib.Utf8
import SolidTrace.Normalise.Flatten

/-!
# Built-in fields

How the value sent for a built-in field is read: as a string, a Level, a hex id or a time. What Go's
standard library decides is a parameter; times are in nanoseconds since 1970.
-/

namespace SolidTrace.Normalise

/-- What Go's standard library decides. `D` is its `float64`. -/
structure Library (D : Type) where
  unmarshalObject : Bytes → Option Object
  unmarshalString : Bytes → Option Bytes
  compact : Bytes → Option Bytes
  /-- `strings.ToLower` and `strings.ToUpper` of text beyond ASCII. -/
  unicodeLower : Bytes → Bytes
  unicodeUpper : Bytes → Bytes
  /-- `time.Parse` in a layout. -/
  parseLayout : Bytes → Bytes → Option ℤ
  /-- `strconv.ParseFloat`, without an error. -/
  parseFloat : Bytes → Option D
  /-- A whole number as the `float64` that holds it exactly. -/
  wholeFloat : Bytes → Option D
  /-- The number a finite `float64` is. -/
  float64 : D → ℚ
  /-- A `float64` times another. -/
  mul : D → ℤ → D

/-- What normalising a Log needs besides the Log itself. -/
structure Receipt where
  at' : ℤ
  retentionDays : ℤ

section Text

variable {D : Type} (lib : Library D)

def lowerByte (b : UInt8) : UInt8 := if 65 ≤ b ∧ b ≤ 90 then b + 32 else b

def upperByte (b : UInt8) : UInt8 := if 97 ≤ b ∧ b ≤ 122 then b - 32 else b

def isASCII (text : Bytes) : Bool := text.all fun b => b < 128

def toLower (text : Bytes) : Bytes := if isASCII text then text.map lowerByte else lib.unicodeLower text

def toUpper (text : Bytes) : Bytes := if isASCII text then text.map upperByte else lib.unicodeUpper text

def parseString (raw : Bytes) : Option Bytes := lib.unmarshalString raw

/-- Each spelling of a Level, in lower case, with the Level. -/
def levels : List (Bytes × Bytes) :=
  [("trace", "trace"), ("debug", "debug"), ("info", "info"), ("warn", "warn"), ("error", "error"),
    ("fatal", "fatal"), ("warning", "warn"), ("err", "error"), ("critical", "fatal"), ("crit", "fatal"),
    ("panic", "fatal"), ("emergency", "fatal"), ("notice", "info")].map fun e : String × String =>
      (Utf8.bytes e.1, Utf8.bytes e.2)

def parseLevel (raw : Bytes) : Option Bytes :=
  match parseString lib raw with
  | some s => levels.lookup (toLower lib s)
  | none => none

def isHexDigit (b : UInt8) : Bool := (48 ≤ b ∧ b ≤ 57) ∨ (97 ≤ b ∧ b ≤ 102) ∨ (65 ≤ b ∧ b ≤ 70)

/-- `hex.DecodeString` reads pairs of hex digits. -/
def decodesHex (s : Bytes) : Bool := s.length % 2 = 0 ∧ s.all isHexDigit

/-- A trace or span id: `digits` hex digits. -/
def hexID (digits : ℕ) (raw : Bytes) : Option Bytes :=
  match parseString lib raw with
  | some s => if s.length ≠ digits then none else if decodesHex s then some (toLower lib s) else none
  | none => none

end Text

section Time

variable {D : Type} (lib : Library D)

def second : ℤ := 1000000000

def hour : ℤ := 3600 * second

/-- How far past its receipt a Log's own time may be. -/
def maxAhead : ℤ := hour

/-- Whether a Log's own time is believable. -/
def Receipt.inWindow (r : Receipt) (t : ℤ) : Bool :=
  let oldest := r.at' - r.retentionDays * (24 * hour)
  oldest ≤ t ∧ t ≤ r.at' + maxAhead

/-- The ISO 8601 forms a Log's time is read in. -/
def iso8601Layouts : List Bytes :=
  ["2006-01-02T15:04:05Z07:00", "2006-01-02T15:04:05Z0700", "2006-01-02T15:04:05Z07",
    "2006-01-02T15:04:05"].map Utf8.bytes

def parseISO8601 (s : Bytes) : Option ℤ :=
  let s := toUpper lib s
  let s := if s.length > 10 ∧ s[10]? = some 32 then s.take 10 ++ 84 :: s.drop 11 else s
  iso8601Layouts.findSome? fun layout => lib.parseLayout layout s

/-- An epoch's unit: what it is below, its length, and how many decimal places of it are whole
nanoseconds. -/
structure EpochUnit where
  below : Option ℚ
  unit : ℤ
  digits : ℕ

def epochUnits : List EpochUnit :=
  [⟨some 100000000000, second, 9⟩, ⟨some 100000000000000, 1000000, 6⟩, ⟨some 100000000000000000, 1000, 3⟩,
    ⟨none, 1, 0⟩]

def maxInt64 : ℤ := 2 ^ 63 - 1

def minInt64 : ℤ := -2 ^ 63

/-- Arithmetic on `int64` wraps. -/
def int64 (n : ℤ) : ℤ := (n - minInt64) % 2 ^ 64 + minInt64

/-- The number that decimal digits write. -/
def parseDigits (digits : Bytes) : Option ℕ :=
  if digits ≠ [] ∧ digits.all (fun b => 48 ≤ b ∧ b ≤ 57) then
    some (digits.foldl (fun n b => n * 10 + (b.toNat - 48)) 0)
  else none

/-- `strconv.ParseInt` of a decimal. -/
def parseInt (number : Bytes) : Option ℤ :=
  let parsed : Option ℤ := match number with
    | 45 :: digits => (parseDigits digits).map fun n => -(n : ℤ)
    | 43 :: digits => (parseDigits digits).map fun n => (n : ℤ)
    | digits => (parseDigits digits).map fun n => (n : ℤ)
  parsed.filter fun n => minInt64 ≤ n ∧ n ≤ maxInt64

/-- A JSON number as a Unix epoch, its unit inferred from its magnitude. -/
def parseEpoch (number : Bytes) : Option ℤ := do
  let f ← lib.parseFloat number
  let e ← epochUnits.find? fun e => e.below.all fun below => |lib.float64 f| < below
  if number.any fun b => b = 101 ∨ b = 69 then
    let nanos := lib.mul f e.unit
    if 2 ^ 63 ≤ |lib.float64 nanos| then none
    else some (if 0 ≤ lib.float64 nanos then ⌊lib.float64 nanos⌋ else ⌈lib.float64 nanos⌉)
  else
    let whole := number.takeWhile (· ≠ dot)
    let fraction := (number.dropWhile (· ≠ dot)).tail
    let w ← parseInt whole
    if w > maxInt64.tdiv e.unit - 1 ∨ w < minInt64.tdiv e.unit + 1 then none
    else
      let nanos := int64 (w * e.unit)
      let fraction := (fraction ++ List.replicate 9 48).take e.digits
      if fraction = [] then some nanos
      else
        let part := (parseInt fraction).getD 0
        some (int64 (nanos + if whole.head? = some 45 then -part else part))

/-- An ISO 8601 time, or a numeric epoch. -/
def parseTime (raw : Bytes) : Option ℤ :=
  match parseString lib raw with
  | some s => parseISO8601 lib s
  | none => parseEpoch lib raw

end Time

end SolidTrace.Normalise
