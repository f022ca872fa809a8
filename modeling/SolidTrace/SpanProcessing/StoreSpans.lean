import SolidTrace.Lib.RangeReader
import SolidTrace.LogProcessing.StoreLogs
import SolidTrace.SpanProcessing.Spans
import SolidTrace.Storage.PendingBatches

/-!
# Span processing

`Processor.storeSpans` moves a Project's Transaction batches from Pebble to ClickHouse: it reads
the batches after its cursor, records the last of them, inserts their Spans into spans and each
segment's row into trace_index, both under a dedup token made from the range, moves the cursor, and
deletes the batches. An attempt may fail or the process crash between any two of these, also
between the two inserts. The machine below takes them one at a time, beside writes of every
Project and Log processing.
-/

namespace SolidTrace.SpanProcessing

open Storage
open LogProcessing (Token Outcome)

variable {L R : Type*}

/-- Roughly how many bytes of Transactions one insert takes. -/
def maxBytesPerInsert : ℕ := 8 * 2 ^ 20

/-- The batches after `after` up to and including `upTo`, as an attempt read them. -/
abbrev TransactionRange := Ledger.Range (Batch Transaction) UUID

/-- One run of `storeSpans`: the range it stores, and whether the range was recorded before. -/
structure Attempt where
  project : ProjectID
  range : TransactionRange
  again : Bool
deriving DecidableEq

/-- A row of a ClickHouse table. `batch` is no column of it: it says where the row came from. -/
structure Row (R : Type*) where
  project : ProjectID
  batch : UUID
  columns : R
deriving DecidableEq

/-- A segment's row in trace_index. -/
structure TraceIndex where
  traceID : String
  start : ℤ
  finish : ℤ
  transaction : String
deriving DecidableEq

/-- A ClickHouse table, with the tokens of all the inserts it has taken. -/
structure Table (R : Type*) where
  tokens : List Token
  rows : List (Row R)

/-- An insert: the table drops one whose token it has taken. -/
def Table.insert (t : Table R) (token : Token) (rows : List (Row R)) : Table R :=
  if token ∈ t.tokens then t else { tokens := token :: t.tokens, rows := t.rows ++ rows }

/-- The rows in spans of a Project's batches. A Transaction that can't be read is skipped. -/
def spanRows (lib : Library) (project : ProjectID) (batches : List (Batch Transaction)) :
    List (Row Span) :=
  batches.flatMap fun batch => batch.items.flatMap fun transaction =>
    match spansOf lib transaction with
    | .ok rows => rows.map fun span => ⟨project, batch.id, span⟩
    | .error _ => []

/-- A segment's row in trace_index. -/
def traceIndexRow (row : Row Span) : Row TraceIndex where
  project := row.project
  batch := row.batch
  columns := ⟨row.columns.traceID, row.columns.start, row.columns.finish, row.columns.transaction⟩

/-- The rows in trace_index of an insert's Spans. -/
def traceIndexRows (rows : List (Row Span)) : List (Row TraceIndex) :=
  (rows.filter fun row => row.columns.isSegment).map traceIndexRow

/-- How far `storeSpans` is. -/
inductive Phase where
  | idle
  | read (attempt : Attempt)
  | recorded (attempt : Attempt)
  | spansInserted (attempt : Attempt)
  | inserted (attempt : Attempt)
  | moved (attempt : Attempt)

/-- What `storeSpans` reads: the batches after the cursor or, while the range it last recorded is
past the cursor, those of it that are left. It stores nothing where there are none. -/
def readAttempt (size : List Transaction → ℕ) (w : PebbleWriter L Transaction)
    (project : ProjectID) : Option Attempt :=
  let cursor := w.spanProcessingCursor project
  let recorded := w.recordedSpanInsert project
  let batches := w.transactionBatchesAfter size project cursor maxBytesPerInsert
  let kept := batches.takeWhile fun batch => batch.id ≤ recorded
  let again := decide (cursor < recorded)
  let batches := if again then kept else batches
  batches.getLast?.map fun last => ⟨project, ⟨cursor, last.id, batches⟩, again⟩

/-- Pebble, ClickHouse's two Span tables, and the worker. `history` is every Transaction batch
written, and `recording` the range each Project's last record was made for: neither is stored. -/
structure System (L : Type*) where
  pebble : BatchRun L Transaction
  spans : Table Span
  traceIndex : Table TraceIndex
  worker : Phase
  history : List (ProjectID × Batch Transaction)
  recording : ProjectID → Option TransactionRange

/-- What happens around and inside Span processing. -/
inductive Action (L : Type*) where
  | writeTransactionBatch (project : ProjectID) (transactions : List Transaction) (receivedAt : ℤ)
      (random : UUID)
  | writeLogBatch (project : ProjectID) (logs : List L) (receivedAt : ℤ) (random : UUID)
  | recordLogInsert (project : ProjectID) (upTo : UUID)
  | setLogProcessingCursor (project : ProjectID) (cursor : UUID)
  | deleteLogBatchesUpTo (project : ProjectID) (upTo : UUID)
  | stopWrites
  | read (project : ProjectID)
  | record (outcome : Outcome)
  | insertSpans (outcome : Outcome)
  | insertTraceIndex (outcome : Outcome)
  | moveCursor (outcome : Outcome)
  | deleteBatches (outcome : Outcome)
  | crash

namespace System

/-- Nothing written yet. -/
def init : System L where
  pebble := BatchRun.init
  spans := ⟨[], []⟩
  traceIndex := ⟨[], []⟩
  worker := .idle
  history := []
  recording := fun _ => none

/-- The Transaction batches written for a Project, oldest first. -/
def historyOf (s : System L) (project : ProjectID) : List (Batch Transaction) :=
  (s.history.filter fun e => e.1 = project).map Prod.snd

/-- A Project's Span processing cursor. -/
def cursor (s : System L) (project : ProjectID) : UUID :=
  s.pebble.writer.spanProcessingCursor project

/-- The last batch of a Project's recorded range. -/
def recorded (s : System L) (project : ProjectID) : UUID :=
  s.pebble.writer.recordedSpanInsert project

/-- The token of an attempt's inserts. -/
def token (attempt : Attempt) : Token :=
  ⟨attempt.project, attempt.range.after, attempt.range.upTo⟩

/-- Record an attempt's range. -/
def recordSpanInsert (s : System L) (attempt : Attempt) : System L :=
  { s with
    pebble := { s.pebble with
      writer := s.pebble.writer.recordSpanInsert attempt.project attempt.range.upTo }
    recording := Function.update s.recording attempt.project (some attempt.range) }

/-- Insert an attempt's Spans into spans. -/
def insertIntoSpans (lib : Library) (s : System L) (attempt : Attempt) : System L :=
  let rows := spanRows lib attempt.project attempt.range.items
  { s with spans := s.spans.insert (token attempt) rows }

/-- Insert the rows of an attempt's segments into trace_index. -/
def insertIntoTraceIndex (lib : Library) (s : System L) (attempt : Attempt) : System L :=
  let rows := spanRows lib attempt.project attempt.range.items
  { s with traceIndex := s.traceIndex.insert (token attempt) (traceIndexRows rows) }

/-- Move the cursor past an attempt's range. -/
def setSpanProcessingCursor (s : System L) (attempt : Attempt) : System L :=
  { s with pebble := { s.pebble with
      writer := s.pebble.writer.setSpanProcessingCursor attempt.project attempt.range.upTo } }

/-- Delete an attempt's batches. -/
def deleteTransactionBatches (s : System L) (attempt : Attempt) : System L :=
  { s with pebble := { s.pebble with
      writer := s.pebble.writer.deleteTransactionBatchesUpTo attempt.project attempt.range.upTo } }

/-- How a write ends the phase: the next one if it is done, and the attempt otherwise. -/
def settle (s written : System L) (next : Phase) : Outcome → System L
  | .done => { written with worker := next }
  | .failedAfter => { written with worker := .idle }
  | .failedBefore => { s with worker := .idle }

/-- A Transaction batch written, or a refused write. -/
def writeTransactionBatch (s : System L) (project : ProjectID) (transactions : List Transaction)
    (receivedAt : ℤ) (random : UUID) : System L :=
  match s.pebble.writer.writeTransactionBatch project transactions receivedAt random with
  | .ok w => { s with
      pebble := ⟨w, s.pebble.issued ++ [w.logBatchFloor]⟩
      history := s.history ++ [(project, ⟨w.logBatchFloor, transactions⟩)] }
  | .error _ => s

/-- One action. The worker takes one Project's attempt at a time. A range without Spans is not
inserted. A failed delete is logged and left to the next. After a crash the process opens Pebble
and prepares anew. -/
def step (lib : Library) (size : List Transaction → ℕ) (s : System L) :
    Action L → Option (System L)
  | .writeTransactionBatch project transactions receivedAt random =>
    some (s.writeTransactionBatch project transactions receivedAt random)
  | .writeLogBatch project logs receivedAt random =>
    (s.pebble.step (.writeLogBatch project logs receivedAt random)).map
      fun pebble => { s with pebble }
  | .recordLogInsert project upTo =>
    (s.pebble.step (.recordLogInsert project upTo)).map fun pebble => { s with pebble }
  | .setLogProcessingCursor project cursor =>
    (s.pebble.step (.setLogProcessingCursor project cursor)).map fun pebble => { s with pebble }
  | .deleteLogBatchesUpTo project upTo =>
    (s.pebble.step (.deleteLogBatchesUpTo project upTo)).map fun pebble => { s with pebble }
  | .stopWrites => (s.pebble.step .stopWrites).map fun pebble => { s with pebble }
  | .read project =>
    match s.worker with
    | .idle =>
      match readAttempt size s.pebble.writer project with
      | some attempt => some { s with worker := .read attempt }
      | none => some s
    | _ => none
  | .record outcome =>
    match s.worker with
    | .read attempt =>
      if attempt.again then some { s with worker := .recorded attempt }
      else some (s.settle (s.recordSpanInsert attempt) (.recorded attempt) outcome)
    | _ => none
  | .insertSpans outcome =>
    match s.worker with
    | .recorded attempt =>
      if (spanRows lib attempt.project attempt.range.items).isEmpty then
        some { s with worker := .inserted attempt }
      else some (s.settle (s.insertIntoSpans lib attempt) (.spansInserted attempt) outcome)
    | _ => none
  | .insertTraceIndex outcome =>
    match s.worker with
    | .spansInserted attempt =>
      some (s.settle (s.insertIntoTraceIndex lib attempt) (.inserted attempt) outcome)
    | _ => none
  | .moveCursor outcome =>
    match s.worker with
    | .inserted attempt =>
      some (s.settle (s.setSpanProcessingCursor attempt) (.moved attempt) outcome)
    | _ => none
  | .deleteBatches outcome =>
    match s.worker with
    | .moved attempt => some (s.settle (s.deleteTransactionBatches attempt) .idle outcome)
    | _ => none
  | .crash =>
    some { s with
      pebble := { s.pebble with writer := s.pebble.writer.restart }
      worker := .idle }

/-- The action is not a write that finds the id floor at its limit. -/
def writesHaveRoom (s : System L) : Action L → Prop
  | .writeTransactionBatch _ _ receivedAt random =>
    BatchRun.hasRoom s.pebble.writer.logBatchFloor random receivedAt
  | .writeLogBatch _ _ receivedAt random =>
    BatchRun.hasRoom s.pebble.writer.logBatchFloor random receivedAt
  | _ => True

end System

end SolidTrace.SpanProcessing
