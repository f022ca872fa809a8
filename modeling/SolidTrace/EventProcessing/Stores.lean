import Mathlib.Data.List.Sort
import Mathlib.Data.List.MinMax
import Mathlib.Order.WithBot
import SolidTrace.Storage.PebbleWriter

/-!
# The stores of Event processing

Pebble holds each Project's Events by id, with its processing cursor and its recorded Event range.
SQLite holds the Issues, their fingerprints, and how far each Project's Events are counted on
them. ClickHouse holds the Events' rows, and the tokens of the ranges it took them from.
-/

namespace SolidTrace.EventProcessing

open Storage SortedStore

/-- An Event as Pebble holds it: its id and its raw payload. -/
structure Event (J : Type*) where
  id : UUID
  raw : J
deriving DecidableEq

/-- Where an Event comes in its Project's order. The empty id, `⊥`, comes before every Event. -/
def Event.key {J : Type*} (event : Event J) : WithBot UUID := event.id

/-- A batch of a Project's Events: those after `after`, up to and including `through`. -/
structure EventRange where
  after : WithBot UUID
  through : UUID
deriving DecidableEq

/-- What Pebble holds of one Project for Event processing. -/
structure PebbleEvents (J : Type*) where
  events : Store UUID J
  cursor : WithBot UUID
  recorded : Option EventRange

namespace PebbleEvents

variable {J : Type*}

/-- Nothing written yet. -/
def new : PebbleEvents J := ⟨Store.empty, ⊥, none⟩

/-- Store an Event under its id. -/
def writeEvent (p : PebbleEvents J) (event : Event J) : PebbleEvents J :=
  { p with events := p.events.set event.id event.raw }

/-- Up to `limit` of the Events after an id, in the order of their ids. -/
def eventsAfter (p : PebbleEvents J) (after : WithBot UUID) (limit : ℕ) : List (Event J) :=
  ((p.events.range fun id => after < id).take limit).map fun e => ⟨e.1, e.2⟩

/-- Record the range Event processing is about to insert. -/
def recordEventRange (p : PebbleEvents J) (range : EventRange) : PebbleEvents J :=
  { p with recorded := some range }

/-- Move the cursor, and delete the recorded range with it. -/
def setProcessingCursor (p : PebbleEvents J) (id : UUID) : PebbleEvents J :=
  { p with cursor := id, recorded := none }

end PebbleEvents

/-- An Issue's kind. -/
inductive IssueKind where
  | default
  | error
  | csp
deriving DecidableEq, Repr

/-- Whether an Issue is open. -/
inductive IssueStatus where
  | open
  | resolved
deriving DecidableEq, Repr

/-- What a payload says of its Issue. -/
structure IssueDetails where
  title : String
  culprit : String
  kind : IssueKind
  fingerprint : String
deriving DecidableEq, Repr

/-- The values of a payload that its row shows. -/
structure EventFields where
  tags : List (String × String)
  environment : String
  serverName : String
  release : String
  level : String
  traceID : String
deriving DecidableEq, Repr

/-- How a payload is read: its Issue, none where it can't be parsed or is null, the time it gives,
by default the time of receipt in its id, and its fields. -/
structure PayloadReader (J : Type*) where
  details : J → Option IssueDetails
  timestamp : J → UUID → ℤ
  fields : J → EventFields

/-- A row of the events table. The time is in nanoseconds since 1970. -/
structure EventRow where
  uuid : UUID
  issueFingerprintID : ℕ
  timestamp : ℤ
  fields : EventFields
deriving DecidableEq, Repr

/-- A row with what Event processing found out about its Issue. -/
structure WorkedRow where
  row : EventRow
  issueID : ℕ
  isNewIssue : Bool
deriving DecidableEq, Repr

/-- The year 1900. -/
def earliestEventTime : ℤ := -2208988800 * 10 ^ 9

/-- The year 2300. -/
def latestEventTime : ℤ := 10413792000 * 10 ^ 9

/-- Whether the events table can hold a row. -/
def EventRow.storable (row : EventRow) : Bool :=
  earliestEventTime ≤ row.timestamp && row.timestamp < latestEventTime

/-- An Issue. -/
structure Issue where
  id : ℕ
  project : ProjectID
  number : ℕ
  title : String
  culprit : String
  kind : IssueKind
  status : IssueStatus
  timesSeen : ℕ
  firstSeenAt : Option ℤ
  lastSeenAt : Option ℤ
deriving DecidableEq, Repr

/-- A fingerprint and its Issue. -/
structure IssueFingerprint where
  id : ℕ
  issueID : ℕ
  project : ProjectID
  fingerprint : String
deriving DecidableEq, Repr

/-- What a fingerprint leads to. -/
structure FoundIssue where
  issueID : ℕ
  fingerprintID : ℕ
  status : IssueStatus
deriving DecidableEq, Repr

/-- The tables of SQLite that Event processing writes. `seen` is how far each Project's Events are
counted. -/
structure SQLite where
  issues : List Issue
  fingerprints : List IssueFingerprint
  issueCounters : ProjectID → ℕ
  seen : ProjectID → WithBot UUID

/-- Rails' datetimes: whole microseconds. -/
def datetime (time : ℤ) : ℤ := time / 1000

namespace SQLite

/-- Empty tables. -/
def new : SQLite := ⟨[], [], fun _ => 0, fun _ => ⊥⟩

/-- Look a fingerprint up, with its Issue's status. -/
def findIssueByFingerprint (db : SQLite) (project : ProjectID) (fingerprint : String) :
    Option FoundIssue := do
  let found ← db.fingerprints.find? fun f => f.project = project && f.fingerprint = fingerprint
  let issue ← db.issues.find? fun issue => issue.id = found.issueID
  some ⟨issue.id, found.id, issue.status⟩

/-- Make an Issue for a fingerprint that has none, with its Project's next number. -/
def createIssue (db : SQLite) (project : ProjectID) (details : IssueDetails) : SQLite :=
  let number := db.issueCounters project + 1
  let issueID := db.issues.length + 1
  { db with
    issueCounters := Function.update db.issueCounters project number
    issues := db.issues ++ [{
      id := issueID, project, number, title := details.title, culprit := details.culprit,
      kind := details.kind, status := .open, timesSeen := 0, firstSeenAt := none,
      lastSeenAt := none }]
    fingerprints := db.fingerprints ++
      [⟨db.fingerprints.length + 1, issueID, project, details.fingerprint⟩] }

/-- Set an Issue's status. -/
def setStatus (db : SQLite) (issueID : ℕ) (status : IssueStatus) : SQLite :=
  { db with issues := db.issues.map fun issue =>
      if issue.id = issueID then { issue with status } else issue }

/-- Open a resolved Issue again. -/
def reopenIssue (db : SQLite) (issueID : ℕ) : SQLite := db.setStatus issueID .open

/-- Add the times at which an Issue was seen. -/
def addSeen (issue : Issue) (times : List ℤ) : Issue :=
  match times.min?, times.max? with
  | some first, some last =>
    { issue with
      timesSeen := issue.timesSeen + times.length
      firstSeenAt := some (min (issue.firstSeenAt.getD (datetime first)) (datetime first))
      lastSeenAt := some (max (issue.lastSeenAt.getD (datetime last)) (datetime last)) }
  | _, _ => issue

/-- Count rows on their Issues, and move the Project's guard through `through`: a range that is
counted already adds nothing. -/
def recordSeenEvents (db : SQLite) (project : ProjectID) (rows : List WorkedRow) (through : UUID) :
    SQLite :=
  if through ≤ db.seen project then db
  else
    let counted := rows.filter fun row => db.seen project < row.row.uuid
    { db with
      issues := db.issues.map fun issue => addSeen issue
        ((counted.filter fun row => row.issueID = issue.id).map fun row => row.row.timestamp)
      seen := Function.update db.seen project through }

end SQLite

/-- What the events table holds of one Project, and the ranges of the Project it took: a token is
made from its Project, the range's start and its end. -/
structure EventsTable where
  tokens : List (WithBot UUID × WithBot UUID)
  rows : List EventRow

/-- Insert a range's rows: ClickHouse is not asked to insert none, and drops an insert whose token
it has taken. -/
def EventsTable.insertEvents (table : EventsTable) (after : WithBot UUID) (through : UUID)
    (rows : List EventRow) : EventsTable :=
  let token : WithBot UUID × WithBot UUID := (after, through)
  if rows = [] ∨ token ∈ table.tokens then table
  else { tokens := token :: table.tokens, rows := table.rows ++ rows }

/-- A message to the Console about Issues. -/
inductive Message where
  | issueCreated (issueIDs : List ℕ)
  | issueReceivedEvent (issueIDs : List ℕ)
deriving DecidableEq, Repr

/-- The messages of a batch: the Issues it created, then the others that got Events. -/
def enqueueMessages (rows : List WorkedRow) : List Message :=
  let ids := fun rows : List WorkedRow =>
    ((rows.map WorkedRow.issueID).dedup).insertionSort (· ≤ ·)
  let created := ids (rows.filter WorkedRow.isNewIssue)
  let existing := ids (rows.filter fun row => !row.isNewIssue && row.issueID ∉ created)
  (if created = [] then [] else [.issueCreated created]) ++
    if existing = [] then [] else [.issueReceivedEvent existing]

end SolidTrace.EventProcessing
