import SolidTrace.LogProcessing.StoreLogs
import SolidTrace.EventProcessing.Stores

/-!
# Event processing

`Processor.processBatch` handles up to `batchSize` of a Project's Events after its cursor: the
Issue of each in SQLite, then the range recorded in Pebble, the rows inserted into ClickHouse under
the range's token, the Events counted on their Issues, the Console told, and the cursor moved. Each
step is tried until its store takes it. A stop abandons a batch whose step is being retried, and a
range processed again; otherwise the batch ends with the Events whose Issue work is done. The
process may also crash anywhere.
-/

namespace SolidTrace.EventProcessing

open Storage SortedStore
open LogProcessing (Outcome)

variable {J : Type*}

/-- The most Events of one batch. -/
def batchSize : ℕ := 10000

/-- How often an Event that fails on its content is retried before it is skipped. -/
def contentRetries : ℕ := 3

/-- What a batch is read from: its Project and cursor, and the end of the recorded range if it is
that range again. -/
structure Attempt where
  project : ProjectID
  after : WithBot UUID
  again : Option UUID

/-- A batch whose Issue work is done. -/
structure EventBatch (J : Type*) where
  project : ProjectID
  after : WithBot UUID
  through : UUID
  events : List (Event J)
  rows : List WorkedRow

/-- The rows of a batch that the events table can hold. -/
def EventBatch.stored (batch : EventBatch J) : List WorkedRow :=
  batch.rows.filter fun row => row.row.storable

/-- What an Event's Issue work waits for: nothing yet, a store that failed, or a retry after so
many errors on its content. -/
inductive Waiting where
  | fresh
  | storeError
  | contentError (errors : ℕ)
deriving DecidableEq, Repr

/-- How often an Event has failed on its content. -/
def Waiting.errors : Waiting → ℕ
  | .contentError errors => errors
  | _ => 0

/-- How far `processBatch` is. `failing` is whether the next step has failed and waits to be
retried. -/
inductive Phase (J : Type*) where
  | idle
  | working (attempt : Attempt) (done : List (Event J)) (rows : List WorkedRow) (event : Event J)
      (rest : List (Event J)) (waiting : Waiting)
  | worked (batch : EventBatch J) (again : Bool) (failing : Bool)
  | recorded (batch : EventBatch J) (failing : Bool)
  | inserted (batch : EventBatch J) (failing : Bool)
  | counted (batch : EventBatch J) (failing : Bool)
  | enqueued (batch : EventBatch J) (failing : Bool)

/-- An Event that was written, and the process that wrote it. -/
structure Written (J : Type*) where
  process : ℕ
  project : ProjectID
  event : Event J

/-- The stores and the worker. `refusing` is whether writes are refused, and `stopped` whether the
worker is asked to stop. `process`, `written`, and `recording`, the Events each Project's last
record was made for, are not stored. -/
structure System (J : Type*) where
  pebble : ProjectID → PebbleEvents J
  sqlite : SQLite
  table : ProjectID → EventsTable
  messages : List Message
  worker : Phase J
  refusing : Bool
  stopped : Bool
  process : ℕ
  written : List (Written J)
  recording : ProjectID → Option (EventRange × List (Event J))

/-- What happens around and inside Event processing. -/
inductive Action (J : Type*) where
  | writeEvent (project : ProjectID) (raw : J) (newV7 : UUID)
  | stopWrites
  | resolveIssue (issueID : ℕ)
  | read (project : ProjectID)
  | issueWork (outcome : Outcome)
  | record (outcome : Outcome)
  | insert (outcome : Outcome)
  | count (outcome : Outcome)
  | enqueue (failsAfter : Option ℕ)
  | moveCursor (outcome : Outcome)
  | stop
  | giveUp
  | restart

/-- What a batch reads: the Events after the cursor or, where the recorded range starts there, that
range again. -/
def readBatch (p : PebbleEvents J) (project : ProjectID) : Attempt × List (Event J) :=
  let events := p.eventsAfter p.cursor batchSize
  match p.recorded with
  | some recorded =>
    if recorded.after = p.cursor then
      (⟨project, p.cursor, some recorded.through⟩, events.filter fun e => e.id ≤ recorded.through)
    else (⟨project, p.cursor, none⟩, events)
  | none => (⟨project, p.cursor, none⟩, events)

/-- End the Issue work with the Events that are done. The range is the recorded one, or ends at the
last of them. -/
def finish (attempt : Attempt) (done : List (Event J)) (rows : List WorkedRow) : Phase J :=
  match done.getLast? with
  | none => .idle
  | some last =>
    .worked ⟨attempt.project, attempt.after, attempt.again.getD last.id, done, rows⟩
      attempt.again.isSome false

/-- Go on to the next Event. -/
def advance (attempt : Attempt) (done : List (Event J)) (rows : List WorkedRow) :
    List (Event J) → Phase J
  | [] => finish attempt done rows
  | event :: rest => .working attempt done rows event rest .fresh

/-- Find or create the Issue of a payload's details, open it again if it is resolved, and make the
Event's row. -/
def issueWork (reader : PayloadReader J) (db : SQLite) (project : ProjectID) (event : Event J)
    (details : IssueDetails) : SQLite × WorkedRow :=
  let row := fun fingerprintID : ℕ => (⟨event.id, fingerprintID,
    reader.timestamp event.raw event.id, reader.fields event.raw⟩ : EventRow)
  match db.findIssueByFingerprint project details.fingerprint with
  | some found =>
    (if found.status = .resolved then db.reopenIssue found.issueID else db,
      ⟨row found.fingerprintID, found.issueID, false⟩)
  | none =>
    (db.createIssue project details,
      ⟨row (db.fingerprints.length + 1), db.issues.length + 1, true⟩)

namespace System

/-- Nothing written yet. -/
def init : System J where
  pebble := fun _ => PebbleEvents.new
  sqlite := SQLite.new
  table := fun _ => ⟨[], []⟩
  messages := []
  worker := .idle
  refusing := false
  stopped := false
  process := 0
  written := []
  recording := fun _ => none

/-- The Events written for a Project, oldest first. -/
def historyOf (s : System J) (project : ProjectID) : List (Event J) :=
  (s.written.filter fun w => w.project = project).map Written.event

/-- How a write to a store ends: on to the next phase, or the same one, to be retried. -/
def settle (s wrote : System J) (next retry : Phase J) : Outcome → System J
  | .done => { wrote with worker := next }
  | .failedAfter => { wrote with worker := retry }
  | .failedBefore => { s with worker := retry }

/-- An Event written under the id `uuid.NewV7` gave, or a refused write. -/
def writeEvent (s : System J) (project : ProjectID) (raw : J) (newV7 : UUID) : System J :=
  if s.refusing then s
  else { s with
    pebble := Function.update s.pebble project ((s.pebble project).writeEvent ⟨newV7, raw⟩)
    written := s.written ++ [⟨s.process, project, ⟨newV7, raw⟩⟩] }

/-- Try an Event's Issue work. A payload that can't be read is an error on its content. -/
def work (reader : PayloadReader J) (s : System J) (attempt : Attempt) (done : List (Event J))
    (rows : List WorkedRow) (event : Event J) (rest : List (Event J)) (waiting : Waiting)
    (outcome : Outcome) : System J :=
  match reader.details event.raw with
  | none =>
    if waiting.errors = contentRetries then
      { s with worker := advance attempt (done ++ [event]) rows rest }
    else
      { s with
        worker := .working attempt done rows event rest (.contentError (waiting.errors + 1)) }
  | some details =>
    let worked := issueWork reader s.sqlite attempt.project event details
    s.settle { s with sqlite := worked.1 }
      (advance attempt (done ++ [event]) (rows ++ [worked.2]) rest)
      (.working attempt done rows event rest .storeError) outcome

/-- Record a batch's range. -/
def recordEventRange (s : System J) (batch : EventBatch J) : System J :=
  let range : EventRange := ⟨batch.after, batch.through⟩
  { s with
    pebble := Function.update s.pebble batch.project
      ((s.pebble batch.project).recordEventRange range)
    recording := Function.update s.recording batch.project (some (range, batch.events)) }

/-- Insert a batch's rows. -/
def insertEvents (s : System J) (batch : EventBatch J) : System J :=
  { s with
    table := Function.update s.table batch.project
      ((s.table batch.project).insertEvents batch.after batch.through
        (batch.stored.map WorkedRow.row)) }

/-- Count a batch's rows on their Issues. -/
def recordSeenEvents (s : System J) (batch : EventBatch J) : System J :=
  { s with sqlite := s.sqlite.recordSeenEvents batch.project batch.stored batch.through }

/-- Move the cursor past a batch's range. -/
def setProcessingCursor (s : System J) (batch : EventBatch J) : System J :=
  { s with
    pebble := Function.update s.pebble batch.project
      ((s.pebble batch.project).setProcessingCursor batch.through) }

/-- What a stop does to a worker that waits to retry. -/
def giveUp : Phase J → Option (Phase J)
  | .working attempt done rows _ _ waiting =>
    match waiting, attempt.again with
    | .fresh, _ => none
    | .storeError, _ => some .idle
    | .contentError _, some _ => some .idle
    | .contentError _, none => some (finish attempt done rows)
  | .worked _ _ failing | .recorded _ failing | .inserted _ failing | .counted _ failing
  | .enqueued _ failing => if failing then some .idle else none
  | .idle => none

/-- One action. The worker takes one batch at a time, and starts none once it is asked to stop.
`restart` is the end of the process, by a crash or after a stop, and the start of the next. -/
def step (reader : PayloadReader J) (s : System J) : Action J → Option (System J)
  | .writeEvent project raw newV7 => some (s.writeEvent project raw newV7)
  | .stopWrites => some { s with refusing := true }
  | .resolveIssue issueID => some { s with sqlite := s.sqlite.setStatus issueID .resolved }
  | .read project =>
    match s.worker with
    | .idle =>
      if s.stopped then none
      else
        let batch := readBatch (s.pebble project) project
        some { s with worker := advance batch.1 [] [] batch.2 }
    | _ => none
  | .issueWork outcome =>
    match s.worker with
    | .working attempt done rows event rest waiting =>
      if waiting = .fresh ∧ s.stopped then
        some { s with worker := if attempt.again.isSome then .idle else finish attempt done rows }
      else some (s.work reader attempt done rows event rest waiting outcome)
    | _ => none
  | .record outcome =>
    match s.worker with
    | .worked batch again _ =>
      if again then some { s with worker := .recorded batch false }
      else some (s.settle (s.recordEventRange batch) (.recorded batch false)
        (.worked batch again true) outcome)
    | _ => none
  | .insert outcome =>
    match s.worker with
    | .recorded batch _ =>
      some (s.settle (s.insertEvents batch) (.inserted batch false) (.recorded batch true) outcome)
    | _ => none
  | .count outcome =>
    match s.worker with
    | .inserted batch _ =>
      if batch.stored = [] then some { s with worker := .counted batch false }
      else some (s.settle (s.recordSeenEvents batch) (.counted batch false) (.inserted batch true)
        outcome)
    | _ => none
  | .enqueue failsAfter =>
    match s.worker with
    | .counted batch _ =>
      match failsAfter with
      | none => some { s with
          messages := s.messages ++ enqueueMessages batch.rows
          worker := .enqueued batch false }
      | some sent => some { s with
          messages := s.messages ++ (enqueueMessages batch.rows).take sent
          worker := .counted batch true }
    | _ => none
  | .moveCursor outcome =>
    match s.worker with
    | .enqueued batch _ =>
      some (s.settle (s.setProcessingCursor batch) .idle (.enqueued batch true) outcome)
    | _ => none
  | .stop => some { s with stopped := true }
  | .giveUp =>
    if s.stopped then (giveUp s.worker).map fun worker => { s with worker } else none
  | .restart =>
    some { s with
      worker := .idle, refusing := false, stopped := false, process := s.process + 1 }

/-- The action is no write under an id at or below one that its process gave before: what
`uuid.NewV7` promises. -/
def idsIncrease (s : System J) : Action J → Prop
  | .writeEvent _ _ newV7 => ∀ w ∈ s.written, w.process = s.process → w.event.id < newV7
  | _ => True

/-- The action is no process's first write for a Project under an id at or below one that an
earlier process gave for it: the clock does not step back across a restart. -/
def startsAbove (s : System J) : Action J → Prop
  | .writeEvent project _ newV7 =>
    (∀ w ∈ s.written, w.process = s.process → w.project ≠ project) →
      ∀ w ∈ s.written, w.project = project → w.event.id < newV7
  | _ => True

section Steps

variable {reader : PayloadReader J} {s t : System J} {outcome : Outcome}

/-- An idle worker reads a Project's next batch. -/
theorem step_read {project : ProjectID} (h : s.step reader (.read project) = some t) :
    s.worker = .idle ∧ t = { s with
      worker := advance (readBatch (s.pebble project) project).1 [] [] (readBatch (s.pebble project) project).2 } := by
  rw [step] at h
  split at h
  next hworker =>
    split at h
    · cases h
    · exact ⟨hworker, (Option.some.inj h).symm⟩
  · cases h

/-- A worker tries an Event's Issue work or, before it has, stops. -/
theorem step_issueWork (h : s.step reader (.issueWork outcome) = some t) :
    ∃ attempt done rows event rest waiting, s.worker = .working attempt done rows event rest waiting ∧
      ((waiting = .fresh ∧ s.stopped) ∧
          t = { s with worker := if attempt.again.isSome then .idle else finish attempt done rows } ∨
        ¬(waiting = .fresh ∧ s.stopped) ∧ t = s.work reader attempt done rows event rest waiting outcome) := by
  rw [step] at h
  split at h
  next attempt done rows event rest waiting hworker =>
    refine ⟨attempt, done, rows, event, rest, waiting, hworker, ?_⟩
    split at h
    next hstopped => exact .inl ⟨hstopped, (Option.some.inj h).symm⟩
    next hgoing => exact .inr ⟨hgoing, (Option.some.inj h).symm⟩
  · cases h

/-- A worker records a batch's range, unless it is the recorded one. -/
theorem step_record (h : s.step reader (.record outcome) = some t) :
    ∃ batch again failing, s.worker = .worked batch again failing ∧
      (again = true ∧ t = { s with worker := .recorded batch false } ∨
        again = false ∧ t = s.settle (s.recordEventRange batch) (.recorded batch false)
          (.worked batch again true) outcome) := by
  rw [step] at h
  split at h
  next batch again failing hworker =>
    refine ⟨batch, again, failing, hworker, ?_⟩
    split at h
    next hagain => exact .inl ⟨hagain, (Option.some.inj h).symm⟩
    next hagain => exact .inr ⟨Bool.eq_false_iff.2 hagain, (Option.some.inj h).symm⟩
  · cases h

/-- A worker inserts the rows of a batch it has recorded. -/
theorem step_insert (h : s.step reader (.insert outcome) = some t) :
    ∃ batch failing, s.worker = .recorded batch failing ∧
      t = s.settle (s.insertEvents batch) (.inserted batch false) (.recorded batch true) outcome := by
  rw [step] at h
  split at h
  next batch failing hworker => exact ⟨batch, failing, hworker, (Option.some.inj h).symm⟩
  · cases h

/-- A worker counts the rows of a batch it has inserted, where there are any. -/
theorem step_count (h : s.step reader (.count outcome) = some t) :
    ∃ batch failing, s.worker = .inserted batch failing ∧
      (batch.stored = [] ∧ t = { s with worker := .counted batch false } ∨
        batch.stored ≠ [] ∧ t = s.settle (s.recordSeenEvents batch) (.counted batch false)
          (.inserted batch true) outcome) := by
  rw [step] at h
  split at h
  next batch failing hworker =>
    refine ⟨batch, failing, hworker, ?_⟩
    split at h
    next hnone => exact .inl ⟨hnone, (Option.some.inj h).symm⟩
    next hrows => exact .inr ⟨hrows, (Option.some.inj h).symm⟩
  · cases h

/-- A worker enqueues the messages of a batch it has counted, all of them or some before an error. -/
theorem step_enqueue {failsAfter : Option ℕ} (h : s.step reader (.enqueue failsAfter) = some t) :
    ∃ batch failing, s.worker = .counted batch failing ∧
      (failsAfter = none ∧ t = { s with
          messages := s.messages ++ enqueueMessages batch.rows, worker := .enqueued batch false } ∨
        ∃ sent, failsAfter = some sent ∧ t = { s with
          messages := s.messages ++ (enqueueMessages batch.rows).take sent, worker := .counted batch true }) := by
  rw [step] at h
  split at h
  next batch failing hworker =>
    refine ⟨batch, failing, hworker, ?_⟩
    cases failsAfter with
    | none => exact .inl ⟨rfl, (Option.some.inj h).symm⟩
    | some sent => exact .inr ⟨sent, rfl, (Option.some.inj h).symm⟩
  · cases h

/-- A worker moves the cursor past a batch whose messages are enqueued. -/
theorem step_moveCursor (h : s.step reader (.moveCursor outcome) = some t) :
    ∃ batch failing, s.worker = .enqueued batch failing ∧
      t = s.settle (s.setProcessingCursor batch) .idle (.enqueued batch true) outcome := by
  rw [step] at h
  split at h
  next batch failing hworker => exact ⟨batch, failing, hworker, (Option.some.inj h).symm⟩
  · cases h

/-- A worker that is asked to stop while it waits gives up. -/
theorem step_giveUp (h : s.step reader .giveUp = some t) :
    ∃ worker, giveUp s.worker = some worker ∧ t = { s with worker } := by
  rw [step] at h
  split at h
  · obtain ⟨worker, hgiveUp, rfl⟩ := Option.map_eq_some_iff.mp h
    exact ⟨worker, hgiveUp, rfl⟩
  · cases h

end Steps

end System

end SolidTrace.EventProcessing
