import Mathlib.Algebra.BigOperators.Group.List.Basic
import Mathlib.Data.List.Sort
import SolidTrace.Lib.GroupBy
import SolidTrace.Storage.PebbleWriter

/-!
# A trace's waterfall

The trace page shows a trace's Spans as rows, nested by parent: each row is one Span, or siblings of
one group together, and comes after the row it is nested in. Spans are whatever the SDKs sent: their
ids may be repeated, missing, or name one another. The walk and the marking of the critical path are
recursions that need not end, so both are given fuel here.
-/

namespace SolidTrace.Traces

open Lib Storage

/-- A Span as EventStore answers it. Times are in microseconds. -/
structure Span where
  projectID : ProjectID
  spanID : String
  parentSpanID : String
  group : String
  start : ℤ
  duration : ℕ
  selfTime : ℕ
deriving DecidableEq, Repr

/-- A received Span: which object it is, as its place, and what it says. -/
abbrev Received := Span × ℕ

def startOf (span : Received) : ℤ := span.1.start

def endOf (span : Received) : ℤ := span.1.start + span.1.duration

/-- Ruby's `sort_by`: in the order of a key, those with one key in any order. -/
structure SortBy where
  sort : (Received → ℤ) → List Received → List Received
  perm : ∀ key spans, (sort key spans).Perm spans
  sorted : ∀ key spans, (sort key spans).Pairwise fun a b => key a ≤ key b

/-- One row of the waterfall: the Spans it holds, of which it shows the first's fields, and its depth.
Its offset is from the trace's first start, `spanUs` from its first Span's start to its last end. -/
structure Row where
  members : List Received
  depth : ℕ
  offset : ℤ
  count : ℕ
  duration : ℕ
  selfTime : ℕ
  spanUs : ℤ
  critical : Bool

/-- What siblings are one row by: their group when they have one, or their id. -/
inductive SiblingKey where
  | group (group : String)
  | span (spanID : String)
deriving DecidableEq

/-- A character of Ruby's space class. -/
def isSpace (c : Char) : Bool :=
  c.isWhitespace || [11, 12, 0x85, 0xA0, 0x1680, 0x2028, 0x2029, 0x202F, 0x205F, 0x3000].contains c.toNat ||
    (0x2000 ≤ c.toNat && c.toNat ≤ 0x200A)

/-- Whether a text has more than spaces. -/
def present (text : String) : Bool := text.toList.any fun c => !isSpace c

def siblingKey (span : Received) : SiblingKey :=
  if present span.1.group then .group span.1.group else .span span.1.spanID

section View

variable (sorting : SortBy) (received : List Received)

/-- The Spans that name one as their parent. -/
def childrenOf (span : Received) : List Received :=
  received.filter fun child => child.1.parentSpanID = span.1.spanID

/-- The Spans whose parent isn't in the trace. -/
def roots : List Received :=
  received.filter fun span => span.1.parentSpanID ∉ received.map fun other => other.1.spanID

/-- Spans in start order, those of one group together as one list where the first of them was. -/
def siblings (spans : List Received) : List (List Received) :=
  groupBy siblingKey (sorting.sort startOf spans)

/-- The latest end of Spans. -/
def lastEnd (spans : List Received) : Option ℤ := (spans.map endOf).max?

/-- Mark the Spans that `until` waited on: from it back, the Span that ended last, and so on, and
within each of those its children the same way. -/
def mark : ℕ → List Received → ℤ → Option (List Received)
  | 0, _, _ => none
  | fuel + 1, spans, untilUs => do
    let marked ← (sorting.sort (fun span => -endOf span) spans).foldlM
      (fun (state : List Received × ℤ) span => do
        -- A Span still running when the next one on the path began isn't on it.
        if state.2 < endOf span then return state
        else
          let within ← mark fuel (childrenOf received span) (endOf span)
          return (state.1 ++ span :: within, startOf span))
      ([], untilUs)
    return marked.1

/-- The Spans the trace's end waited on. -/
def critical (fuel : ℕ) : Option (List Received) :=
  mark sorting received fuel (roots received) ((lastEnd received).getD 0 + 1)

/-- The row of Spans at a depth. -/
def row (critical members : List Received) (depth : ℕ) : Row where
  members := members
  depth := depth
  offset := (members.head?.map startOf).getD 0 - ((received.map startOf).min?).getD 0
  count := members.length
  duration := (members.map fun span => span.1.duration).sum
  selfTime := (members.map fun span => span.1.selfTime).sum
  spanUs := (lastEnd members).getD 0 - (members.head?.map startOf).getD 0
  critical := members.any fun span => critical.contains span

/-- The rows of Spans at a depth, and of what is nested in them. -/
def walk (critical : List Received) : ℕ → List Received → ℕ → Option (List Row)
  | 0, _, _ => none
  | fuel + 1, members, depth => do
    let nested ← (siblings sorting (members.flatMap (childrenOf received))).mapM fun group =>
      walk critical fuel group (depth + 1)
    return row received critical members depth :: nested.flatten

/-- The trace's rows in waterfall order. -/
def spans (fuel : ℕ) : Option (List Row) := do
  let marked ← critical sorting received fuel
  let trees ← (siblings sorting (roots received)).mapM fun group => walk sorting received marked fuel group 0
  return trees.flatten

end View

/-- The answered Spans of the Organization's Projects. -/
def received (projects : List ProjectID) (answered : List Span) : List Received :=
  (answered.filter fun span => projects.contains span.projectID).zipIdx

end SolidTrace.Traces
