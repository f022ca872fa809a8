import SolidTrace.Lib.Ledger
import SolidTrace.Storage.BatchIDOrder

/-!
# Log processing

`Processor.storeLogs` moves a Project's Log batches from Pebble to ClickHouse: it reads the
batches after its cursor, records the last of them, runs the Log transform, inserts the Logs under
a dedup token made from the range, moves the cursor, and deletes the batches. An attempt may fail
or the process crash between any two of these. The machine below takes them one at a time, beside
writes of every Project and Span processing.
-/

namespace SolidTrace.LogProcessing

open Storage

variable {L T : Type*}

/-- Roughly how many Logs one insert takes. -/
def maxLogsPerCommit : ℕ := 10000

/-- The batches after `after` up to and including `upTo`, as an attempt read them. -/
abbrev LogRange (L : Type*) := Ledger.Range (Batch L) UUID

/-- One run of `storeLogs`: the range it stores, and whether the range was recorded before. -/
structure Attempt (L : Type*) where
  project : ProjectID
  range : LogRange L
  again : Bool
deriving DecidableEq

/-- The dedup token of an insert, from its Project and range. -/
structure Token where
  project : ProjectID
  after : UUID
  upTo : UUID
deriving DecidableEq, Repr

/-- A Log's row in the logs table. -/
structure LogRow (L : Type*) where
  project : ProjectID
  batch : UUID
  log : L
deriving DecidableEq

/-- How far `storeLogs` is. -/
inductive Phase (L : Type*) where
  | idle
  | read (attempt : Attempt L)
  | recorded (attempt : Attempt L)
  | transformed (attempt : Attempt L) (kept : List (Batch L))
  | inserted (attempt : Attempt L)
  | moved (attempt : Attempt L)

/-- How a write to a store ends: done, or with an error, after or before it took effect. -/
inductive Outcome where
  | done
  | failedAfter
  | failedBefore
deriving DecidableEq, Repr

/-- The batches up to and including the one with id `last`. -/
def upTo (batches : List (Batch L)) (last : UUID) : List (Batch L) :=
  batches.takeWhile fun batch => batch.id ≤ last

/-- What `storeLogs` reads: the batches after the cursor or, while the range it last recorded is
past the cursor, that range again. -/
def readAttempt (w : PebbleWriter L T) (project : ProjectID) : Option (Attempt L) :=
  let cursor := w.logProcessingCursor project
  let recorded := w.recordedLogInsert project
  let batches := w.logBatchesAfter project cursor maxLogsPerCommit
  let kept := upTo batches recorded
  let again := decide (cursor < recorded) && !kept.isEmpty
  let batches := if again then kept else batches
  batches.getLast?.map fun last => ⟨project, ⟨cursor, last.id, batches⟩, again⟩

/-- Run a Project's Log transform on its batches, each with the time its id was made. A batch keeps its id,
and may end up empty. -/
def applyTransform (transform : ProjectID → UUID → L → Option L) (project : ProjectID)
    (batches : List (Batch L)) : List (Batch L) :=
  batches.map fun batch => ⟨batch.id, batch.items.filterMap (transform project batch.id)⟩

/-- The rows of a Project's batches. -/
def logRows (project : ProjectID) (batches : List (Batch L)) : List (LogRow L) :=
  batches.flatMap fun batch => batch.items.map fun log => ⟨project, batch.id, log⟩

/-- Pebble, ClickHouse's logs table with the tokens it has taken (all of them, where ClickHouse remembers the
last 10,000), and the worker. `history` is
every Log batch written, and `recording` the range each Project's last record was made for:
neither is stored. -/
structure System (L T : Type*) where
  pebble : BatchRun L T
  tokens : List Token
  table : List (LogRow L)
  worker : Phase L
  history : List (ProjectID × Batch L)
  recording : ProjectID → Option (LogRange L)

/-- What happens around and inside Log processing. -/
inductive Action (L T : Type*) where
  | writeLogBatch (project : ProjectID) (logs : List L) (receivedAt : ℤ) (random : UUID)
  | writeTransactionBatch (project : ProjectID) (transactions : List T) (receivedAt : ℤ)
      (random : UUID)
  | recordSpanInsert (project : ProjectID) (upTo : UUID)
  | setSpanProcessingCursor (project : ProjectID) (cursor : UUID)
  | deleteTransactionBatchesUpTo (project : ProjectID) (upTo : UUID)
  | stopWrites
  | read (project : ProjectID)
  | record (outcome : Outcome)
  | transform (succeeds : Bool)
  | insert (outcome : Outcome)
  | moveCursor (outcome : Outcome)
  | deleteBatches (outcome : Outcome)
  | crash

namespace System

/-- Nothing written yet. -/
def init : System L T where
  pebble := BatchRun.init
  tokens := []
  table := []
  worker := .idle
  history := []
  recording := fun _ => none

/-- The Log batches written for a Project, oldest first. -/
def historyOf (s : System L T) (project : ProjectID) : List (Batch L) :=
  (s.history.filter fun e => e.1 = project).map Prod.snd

/-- A Project's Log processing cursor. -/
def cursor (s : System L T) (project : ProjectID) : UUID :=
  s.pebble.writer.logProcessingCursor project

/-- The last batch of a Project's recorded range. -/
def recorded (s : System L T) (project : ProjectID) : UUID :=
  s.pebble.writer.recordedLogInsert project

/-- An insert of a Project's range: without rows ClickHouse is not asked, and it drops an insert
whose token it has taken. -/
def insertLogBatches (s : System L T) (attempt : Attempt L) (kept : List (Batch L)) :
    System L T :=
  let rows := logRows attempt.project kept
  let token : Token := ⟨attempt.project, attempt.range.after, attempt.range.upTo⟩
  if rows = [] ∨ token ∈ s.tokens then s
  else { s with tokens := token :: s.tokens, table := s.table ++ rows }

/-- Record an attempt's range. -/
def recordLogInsert (s : System L T) (attempt : Attempt L) : System L T :=
  { s with
    pebble := { s.pebble with
      writer := s.pebble.writer.recordLogInsert attempt.project attempt.range.upTo }
    recording := Function.update s.recording attempt.project (some attempt.range) }

/-- Move the cursor past an attempt's range. -/
def setLogProcessingCursor (s : System L T) (attempt : Attempt L) : System L T :=
  { s with pebble := { s.pebble with
      writer := s.pebble.writer.setLogProcessingCursor attempt.project attempt.range.upTo } }

/-- Delete an attempt's batches. -/
def deleteLogBatches (s : System L T) (attempt : Attempt L) : System L T :=
  { s with pebble := { s.pebble with
      writer := s.pebble.writer.deleteLogBatchesUpTo attempt.project attempt.range.upTo } }

/-- How a write ends the phase: the next one if it is done, and the attempt otherwise. -/
def settle (s written : System L T) (next : Phase L) : Outcome → System L T
  | .done => { written with worker := next }
  | .failedAfter => { written with worker := .idle }
  | .failedBefore => { s with worker := .idle }

/-- A Log batch written, or a refused write. -/
def writeLogBatch (s : System L T) (project : ProjectID) (logs : List L) (receivedAt : ℤ)
    (random : UUID) : System L T :=
  match s.pebble.writer.writeLogBatch project logs receivedAt random with
  | .ok w => { s with
      pebble := ⟨w, s.pebble.issued ++ [w.logBatchFloor]⟩
      history := s.history ++ [(project, ⟨w.logBatchFloor, logs⟩)] }
  | .error _ => s

/-- One action. The worker takes one Project's attempt at a time. A failed delete is logged and
left to the next. After a crash the process opens Pebble and prepares anew. -/
def step (transform : ProjectID → UUID → L → Option L) (s : System L T) :
    Action L T → Option (System L T)
  | .writeLogBatch project logs receivedAt random =>
    some (s.writeLogBatch project logs receivedAt random)
  | .writeTransactionBatch project transactions receivedAt random =>
    (s.pebble.step (.writeTransactionBatch project transactions receivedAt random)).map
      fun pebble => { s with pebble }
  | .recordSpanInsert project upTo =>
    (s.pebble.step (.recordSpanInsert project upTo)).map fun pebble => { s with pebble }
  | .setSpanProcessingCursor project cursor =>
    (s.pebble.step (.setSpanProcessingCursor project cursor)).map fun pebble => { s with pebble }
  | .deleteTransactionBatchesUpTo project upTo =>
    (s.pebble.step (.deleteTransactionBatchesUpTo project upTo)).map fun pebble => { s with pebble }
  | .stopWrites => (s.pebble.step .stopWrites).map fun pebble => { s with pebble }
  | .read project =>
    match s.worker with
    | .idle =>
      match readAttempt s.pebble.writer project with
      | some attempt => some { s with worker := .read attempt }
      | none => some s
    | _ => none
  | .record outcome =>
    match s.worker with
    | .read attempt =>
      if attempt.again then some { s with worker := .recorded attempt }
      else some (s.settle (s.recordLogInsert attempt) (.recorded attempt) outcome)
    | _ => none
  | .transform succeeds =>
    match s.worker with
    | .recorded attempt =>
      if succeeds then
        let kept := applyTransform transform attempt.project attempt.range.items
        some { s with worker := .transformed attempt kept }
      else some { s with worker := .idle }
    | _ => none
  | .insert outcome =>
    match s.worker with
    | .transformed attempt kept =>
      some (s.settle (s.insertLogBatches attempt kept) (.inserted attempt) outcome)
    | _ => none
  | .moveCursor outcome =>
    match s.worker with
    | .inserted attempt =>
      some (s.settle (s.setLogProcessingCursor attempt) (.moved attempt) outcome)
    | _ => none
  | .deleteBatches outcome =>
    match s.worker with
    | .moved attempt => some (s.settle (s.deleteLogBatches attempt) .idle outcome)
    | _ => none
  | .crash =>
    some { s with
      pebble := { s.pebble with writer := s.pebble.writer.restart }
      worker := .idle }

/-- The action is not a write that finds the id floor at its limit. -/
def writesHaveRoom (s : System L T) : Action L T → Prop
  | .writeLogBatch _ _ receivedAt random =>
    BatchRun.hasRoom s.pebble.writer.logBatchFloor random receivedAt
  | .writeTransactionBatch _ _ receivedAt random =>
    BatchRun.hasRoom s.pebble.writer.logBatchFloor random receivedAt
  | _ => True

/-- The action is not a Log batch written under an id at or below an earlier one of its
Project. -/
def idsIncrease (s : System L T) : Action L T → Prop
  | .writeLogBatch project _ receivedAt random => ∀ batch ∈ s.historyOf project,
      batch.id < PebbleWriter.drawBatchID s.pebble.writer.logBatchFloor random receivedAt
  | _ => True

end System

end SolidTrace.LogProcessing
