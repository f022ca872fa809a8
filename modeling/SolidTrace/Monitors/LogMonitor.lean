import Mathlib.Algebra.Order.Ring.Rat
import Mathlib.Order.WithBot
import SolidTrace.Storage.PebbleWriter

/-!
# Monitors

A Monitor's settings, the ranges its run reads, and when a group's number passes its threshold. The
numbers of Queries are exact rationals here. A percent change is one of them or, from a Baseline of
zero, infinite either way.
-/

namespace SolidTrace.Monitors

open Storage

inductive MonitorKind where
  | threshold
  | match
deriving DecidableEq, Repr

inductive Compare where
  | value
  | change
deriving DecidableEq, Repr

/-- The first four compare the value, the others the change. -/
inductive Operator where
  | gt
  | ge
  | lt
  | le
  | rises
  | falls
  | changes
deriving DecidableEq, Repr

inductive Baseline where
  | previous
  | day
  | week
deriving DecidableEq, Repr

/-- A percent change: a number, or infinite. -/
abbrev Change := WithBot (WithTop ℚ)

/-- A number as a change. -/
def Change.of (number : ℚ) : Change := ((number : WithTop ℚ) : WithBot (WithTop ℚ))

/-- A change's size. -/
def Change.abs : Change → Change
  | ⊥ => (⊤ : WithTop ℚ)
  | some ⊤ => (⊤ : WithTop ℚ)
  | some (some number) => Change.of |number|

/-- A Monitor's settings. Times are in seconds since 1970. -/
structure LogMonitor where
  name : String
  kind : MonitorKind
  compare : Compare
  operator : Option Operator
  threshold : Option ℚ
  baseline : Option Baseline
  minimum : Option ℚ
  query : String
  project : ProjectID
  rangeMinutes : ℤ
  intervalMinutes : ℤ
  notifyByGroup : Bool
  alertOnNoData : Bool
  disabledAt : Option ℤ
deriving DecidableEq

def maxIntervalMinutes : ℤ := 24 * 60

def maxRangeMinutes : ℤ := 7 * 24 * 60

/-- A Threshold monitor's range ends this long before its run. -/
def processingLag : ℤ := 60

/-- `value`'s percent change from `baseline`. -/
def change (value baseline : ℚ) : Change :=
  if baseline = 0 then
    if value = 0 then Change.of 0 else if 0 < value then (⊤ : WithTop ℚ) else ⊥
  else Change.of ((value - baseline) / |baseline| * 100)

/-- The change a Notification carries: none for an infinite one, and for no data. -/
def changeFact (value baseline : Option ℚ) : Option ℚ := do
  match change (← value) (← baseline) with
  | some (some number) => some number
  | _ => none

/-- Of two numbers, the one that passes the threshold sooner. -/
def worse {α : Type*} [LinearOrder α] (size : α → α) (operator : Option Operator) (a b : α) : α :=
  match operator with
  | some .lt | some .le | some .falls => min a b
  | some .changes => if size a < size b then b else a
  | _ => max a b

namespace LogMonitor

variable (m : LogMonitor)

def enabled : Bool := m.disabledAt.isNone

def comparesTheChange : Bool := m.kind = .threshold && m.compare = .change

def comparesTheValue : Bool := m.kind = .threshold && m.compare ≠ .change

/-- Whether, comparing the change, a group is too small to compare. -/
def belowMinimum (value : ℚ) (baseline : Option ℚ) : Bool :=
  m.comparesTheChange && match m.minimum with
    | some minimum => max |value| |baseline.getD 0| < minimum
    | none => false

/-- Whether a group's value passes the threshold, none where the comparison raises: comparing the
value, the operator must be one of numbers, and either way there must be a threshold. -/
def breached (value : ℚ) (baseline : Option ℚ) : Option Bool :=
  if m.comparesTheChange then
    if m.belowMinimum value baseline then some false
    else m.threshold.map fun threshold =>
      let change := change value (baseline.getD 0)
      match m.operator with
      | some .rises => Change.of threshold ≤ change
      | some .falls => change ≤ Change.of (-threshold)
      | _ => Change.of threshold ≤ change.abs
  else m.threshold.bind fun threshold =>
    match m.operator with
    | some .gt => some (threshold < value)
    | some .ge => some (threshold ≤ value)
    | some .lt => some (value < threshold)
    | some .le => some (value ≤ threshold)
    | _ => none

/-- The range a run at `now` reads, of the Monitor's length or another. -/
def window (now rangeMinutes : ℤ) : ℤ × ℤ :=
  (now - processingLag - rangeMinutes * 60, now - processingLag)

/-- How far back the Baseline range is. -/
def baselineOffset (rangeMinutes : ℤ) : Option Baseline → ℤ
  | some .day => 24 * 60 * 60
  | some .week => 7 * 24 * 60 * 60
  | _ => rangeMinutes * 60

/-- The range a run at `now` reads for its groups' Baseline. -/
def baselineWindow (now rangeMinutes : ℤ) (baseline : Option Baseline) : ℤ × ℤ :=
  let offset := baselineOffset rangeMinutes baseline
  ((window now rangeMinutes).1 - offset, (window now rangeMinutes).2 - offset)

/-- Words as a sentence. -/
def toSentence : List String → String
  | [] => ""
  | [word] => word
  | [first, last] => first ++ " and " ++ last
  | words => ", ".intercalate words.dropLast ++ ", and " ++ words.getLastD ""

/-- A number with its unit. -/
def pluralize (n : ℤ) (unit : String) : String :=
  toString n ++ " " ++ unit ++ if n = 1 then "" else "s"

/-- A length of time in days, hours and minutes. -/
def durationText (minutes : ℤ) : String :=
  let parts := [("day", minutes / 1440), ("hour", minutes % 1440 / 60), ("minute", minutes % 60)]
  toSentence (parts.filterMap fun part => if 0 < part.2 then some (pluralize part.2 part.1) else none)

/-- Why the Baseline reaches past the Project's Log Retention, none when it doesn't. -/
def baselinePastRetention (retentionDays : ℤ) : Option String :=
  let reach := m.rangeMinutes * 60 + baselineOffset m.rangeMinutes m.baseline
  if reach ≤ retentionDays * 24 * 60 * 60 then none
  else some ("reaches " ++ durationText (reach / 60) ++
    " back, past the Project's Log Retention of " ++ pluralize retentionDays "day" ++
    ", so it would have no Logs to compare with: choose a nearer Baseline or a shorter range, " ++
    "or keep the Project's Logs longer")

/-- A Match monitor, or one comparing the value, has no Baseline or minimum. -/
def forgetTheBaseline : LogMonitor :=
  if m.comparesTheChange then m
  else { m with
    baseline := none
    minimum := none
    compare := if m.kind = .match then .value else m.compare }

/-- Whether a text has more than spaces. -/
def present (text : String) : Bool := text.toList.any fun c => !c.isWhitespace

/-- Whether saving accepts the settings, as far as they decide it. -/
def valid : Bool :=
  present m.name && m.name.length ≤ 200 && present m.query && m.query.length ≤ 20000 &&
  (1 ≤ m.intervalMinutes && m.intervalMinutes ≤ maxIntervalMinutes) &&
  (1 ≤ m.rangeMinutes && m.rangeMinutes ≤ maxRangeMinutes) &&
  (!m.comparesTheValue || m.threshold.isSome &&
    [some .gt, some .ge, some .lt, some .le].contains m.operator) &&
  (!m.comparesTheChange || (m.threshold.any (0 < ·)) &&
    [some .rises, some .falls, some .changes].contains m.operator && m.baseline.isSome &&
    (m.minimum.all (0 < ·)) && !(m.baseline = some .day && 1440 < m.rangeMinutes))

end LogMonitor

end SolidTrace.Monitors
