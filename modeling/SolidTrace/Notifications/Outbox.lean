import Mathlib.Data.Int.Order.Basic
import Mathlib.Data.List.Basic
import SolidTrace.Lib.Transition

/-!
# The Integration notification outbox

A Notification is one row of the outbox: a message owed to an Integration, about an Issue or about
one group of a Monitor. Triggers write rows, and the delivery ticks of Integrations deliver them
and record each row's outcome. A tick is a list of what it still has to do, one statement or one
call of the provider at a time, so that other ticks, triggers, deletions and a kill of its process
fall between any two. Times are in seconds.
-/

namespace SolidTrace.Notifications

abbrev ID := ℕ

inductive Status where
  | pending
  | processing
  | sent
  | failed
  | skipped
deriving DecidableEq, Repr

inductive Kind where
  | issueCreated
  | thresholdReached
  | assignmentChanged
  | monitorFiring
  | monitorResolved
  | monitorMatched
deriving DecidableEq, Repr

/-- What a row is about: an Issue, or one group of a Monitor. `kept` is set when the row keeps what
its message says about the Monitor. -/
inductive Subject where
  | issue (id : ID)
  | monitor (id : ID) (group : String) (kept : Bool)
deriving DecidableEq, Repr

/-- One row of the outbox. -/
structure Notification where
  id : ID
  integration : ID
  subject : Subject
  kind : Kind
  status : Status
  attempts : ℕ
  createdAt : ℤ
  updatedAt : ℤ
  sentAt : Option ℤ
  processingAt : Option ℤ
  errorMessage : Option String
deriving DecidableEq, Repr

/-- Delivery attempts after which a failed Issue row is no longer picked up. -/
def maxAttempts : ℕ := 5

/-- How long a failed Monitor row is retried. -/
def monitorRetryFor : ℤ := 6 * 3600

def rateLimitWindow : ℤ := 60

namespace Notification

/-- Rows a tick still has to deliver: pending, or failed and still retried. -/
def deliverable (now : ℤ) (row : Notification) : Bool :=
  match row.status, row.subject with
  | .pending, _ => true
  | .failed, .issue _ => row.attempts < maxAttempts
  | .failed, .monitor _ _ _ => now - monitorRetryFor ≤ row.createdAt
  | _, _ => false

/-- Failed rows no longer retried: their outcome is final. -/
def exhausted (now : ℤ) (row : Notification) : Bool :=
  match row.status, row.subject with
  | .failed, .issue _ => maxAttempts ≤ row.attempts
  | .failed, .monitor _ _ _ => row.createdAt < now - monitorRetryFor
  | _, _ => false

def isIssue (row : Notification) : Bool :=
  match row.subject with
  | .issue _ => true
  | .monitor _ _ _ => false

/-- A row with its status and outcome set. -/
def mark (now : ℤ) (status : Status) (error : Option String) (row : Notification) : Notification :=
  { row with
    status
    updatedAt := now
    sentAt := if status = .sent then some now else row.sentAt
    processingAt := if status = .processing then some now else row.processingAt
    errorMessage := error }

end Notification

/-- What is left of a tick to do. -/
inductive Op where
  | pluck
  | findIntegration (ids : List ID)
  | checkWindow (ids : List ID)
  | loadIssueRows (ids : List ID)
  | loadMonitorRows (ids : List ID)
  /-- The two statements of `mark_rows`: the first counts the attempt when rows start processing. -/
  | updateCounters (ids : List ID)
  | updateAll (ids : List ID) (status : Status) (error : Option String)
  /-- The provider is called with a message of Issue rows. -/
  | deliverMessage (ids : List ID)
  /-- The rows left of a Monitor group's chain, oldest first. -/
  | chain (ids : List ID)
  /-- The provider is called with a Monitor row's message, the rest of its chain behind it. -/
  | deliverMonitorMessage (id : ID) (rest : List ID)
deriving DecidableEq, Repr

/-- Bulk-update the status of a set of rows. -/
def markRows (ids : List ID) (status : Status) (error : Option String) : List Op :=
  if status = .processing then [.updateCounters ids, .updateAll ids status error]
  else [.updateAll ids status error]

/-- A delivery tick of an Integration. -/
structure Tick where
  integration : ID
  ops : List Op
deriving DecidableEq, Repr

/-- What a provider answers: delivered, or an error, of an adapter that is not configured or any
other. -/
inductive Outcome where
  | delivered
  | notConfigured (message : String)
  | error (message : String)
deriving DecidableEq, Repr

/-- The outbox, what its rows are about, and the ticks that run. -/
structure System where
  now : ℤ
  rows : List Notification
  nextID : ID
  /-- The Integrations there are, and whether each is active. -/
  integrations : List (ID × Bool)
  issues : List ID
  monitors : List ID
  ticks : List Tick

namespace System

def init : System := ⟨0, [], 1, [], [], [], []⟩

def isActive (s : System) (integration : ID) : Option Bool := s.integrations.lookup integration

/-- A new row. -/
def newRow (s : System) (integration : ID) (subject : Subject) (kind : Kind) : Notification :=
  ⟨s.nextID, integration, subject, kind, .pending, 0, s.now, s.now, none, none, none⟩

/-- Write a row. -/
def enqueue (s : System) (integration : ID) (subject : Subject) (kind : Kind) : System :=
  { s with rows := s.rows ++ [s.newRow integration subject kind], nextID := s.nextID + 1 }

/-- Write the rows of a Monitor's changes for its active Integrations. -/
def monitorChanges (s : System) (monitor : ID) (changes : List (Kind × String))
    (integrations : List ID) : System :=
  let active := integrations.filter fun id => s.isActive id = some true
  (changes.flatMap fun c => active.map fun id => (c, id)).foldl
    (fun s e => s.enqueue e.2 (.monitor monitor e.1.2 true) e.1.1) s

/-- The rows a tick of an Integration picks up. -/
def pendingFor (s : System) (integration : ID) : List ID :=
  (s.rows.filter fun row =>
    row.deliverable s.now && row.integration == integration && row.createdAt ≤ s.now).map
    Notification.id

/-- When the rate-limit window of an Integration opens again, if it is not open. -/
def rateLimitWindowOpensAt (s : System) (integration : ID) : Option ℤ :=
  let sent := s.rows.filter fun row => row.integration == integration && row.status == .sent
  match (sent.filterMap Notification.sentAt).max? with
  | some last => if s.now < last + rateLimitWindow then some (last + rateLimitWindow) else none
  | none => none

/-- The kinds of some rows, each once, in the order they come. -/
def kindsOf (rows : List Notification) : List Kind :=
  (rows.map Notification.kind).foldl (fun kinds k => if kinds.contains k then kinds else kinds ++ [k]) []

/-- The messages of some Issue rows: one for all the new Issues, one each for the others. -/
def issueMessages (rows : List Notification) : List Op :=
  (kindsOf rows).flatMap fun kind =>
    let kindRows := rows.filter fun row => row.kind == kind
    if kind = .issueCreated then [.deliverMessage (kindRows.map Notification.id)]
    else kindRows.map fun row => .deliverMessage [row.id]

/-- What a tick does with Issue rows: skip those whose Issue is gone and deliver the others. -/
def deliverIssueRows (s : System) (ids : List ID) : List Op :=
  let rows := s.rows.filter fun row => ids.contains row.id && row.isIssue
  let missing := fun row : Notification => match row.subject with
    | .issue id => !s.issues.contains id
    | .monitor _ _ _ => false
  let gone := rows.filter missing
  let rest := rows.filter fun row => !missing row
  (if gone.isEmpty then [] else markRows (gone.map Notification.id) .skipped (some "Issue missing")) ++
    markRows (rest.map Notification.id) .processing none ++ issueMessages rest

/-- The groups of Monitors that some rows are about, each once, in the order they come. -/
def groupsOf (rows : List Notification) : List Subject :=
  (rows.map fun row => match row.subject with
    | .monitor id group _ => Subject.monitor id group true
    | subject => subject).foldl (fun groups g => if groups.contains g then groups else groups ++ [g]) []

def inGroup (row : Notification) : Subject → Bool
  | .monitor id group _ => match row.subject with
    | .monitor id' group' _ => id == id' && group == group'
    | .issue _ => false
  | .issue _ => false

/-- What a tick does with Monitor rows: skip those with nothing to say of a Monitor that is gone,
and deliver each group's as a chain. -/
def deliverMonitorRows (s : System) (ids : List ID) : List Op :=
  let rows := s.rows.filter fun row => ids.contains row.id && !row.isIssue
  let missing := fun row : Notification => match row.subject with
    | .monitor id _ kept => !s.monitors.contains id && !kept
    | .issue _ => false
  let gone := rows.filter missing
  let rest := rows.filter fun row => !missing row
  (if gone.isEmpty then [] else
    markRows (gone.map Notification.id) .skipped (some "Monitor missing")) ++
    (groupsOf rest).map fun group => .chain ((rest.filter (inGroup · group)).map Notification.id)

/-- The outcome of an Issue message, recorded on every row it carries. -/
def messageOutcome (ids : List ID) : Outcome → List Op
  | .delivered => markRows ids .sent none
  | .notConfigured message => markRows ids .skipped (some message)
  | .error message => markRows ids .failed (some message)

/-- The outcome of a Monitor row. A failure stops its chain. -/
def monitorOutcome (id : ID) (rest : List ID) : Outcome → List Op
  | .delivered => markRows [id] .sent none ++ [.chain rest]
  | .notConfigured message => markRows [id] .skipped (some message) ++ [.chain rest]
  | .error message => markRows [id] .failed (some message)

/-- What a tick does next, and with what its rows and its list of things to do become. Only the
provider's calls have an outcome. -/
def perform (s : System) (integration : ID) (outcome : Outcome) :
    Op → List Notification × List Op
  | .pluck =>
    let ids := s.pendingFor integration
    (s.rows, if ids.isEmpty then [] else [.findIntegration ids])
  | .findIntegration ids =>
    match s.isActive integration with
    | none => (s.rows, markRows ids .skipped (some "Integration missing"))
    | some false => (s.rows, markRows ids .skipped (some "Integration inactive"))
    | some true => (s.rows, [.checkWindow ids])
  | .checkWindow ids =>
    match s.rateLimitWindowOpensAt integration with
    | some _ => (s.rows, [])
    | none => (s.rows, [.loadIssueRows ids, .loadMonitorRows ids])
  | .loadIssueRows ids => (s.rows, s.deliverIssueRows ids)
  | .loadMonitorRows ids => (s.rows, s.deliverMonitorRows ids)
  | .updateCounters ids =>
    (s.rows.map fun row =>
      if ids.contains row.id then { row with attempts := row.attempts + 1 } else row, [])
  | .updateAll ids status error =>
    (s.rows.map fun row => if ids.contains row.id then row.mark s.now status error else row, [])
  | .deliverMessage ids => (s.rows, messageOutcome ids outcome)
  | .chain [] => (s.rows, [])
  | .chain (id :: rest) =>
    (s.rows, markRows [id] .processing none ++ [.deliverMonitorMessage id rest])
  | .deliverMonitorMessage id rest => (s.rows, monitorOutcome id rest outcome)

inductive Action where
  | pass (seconds : ℕ)
  | addIntegration (id : ID)
  | setActive (id : ID) (active : Bool)
  | deleteIntegration (id : ID)
  | addIssue (id : ID)
  | deleteIssue (id : ID)
  | addMonitor (id : ID)
  | deleteMonitor (id : ID)
  /-- A trigger's rule applies to an active Integration. -/
  | record (integration : ID) (kind : Kind) (issue : ID)
  | monitorChanges (monitor : ID) (changes : List (Kind × String)) (integrations : List ID)
  | startTick (integration : ID)
  /-- A tick does the next thing it has to do. -/
  | perform (tick : ℕ) (outcome : Outcome)
  /-- A tick with nothing left ends. -/
  | endTick (tick : ℕ)
  /-- The process of a tick ends, wherever it is. -/
  | kill (tick : ℕ)
  | cleanUp

/-- What one action makes of the system, if it can happen. -/
def step (s : System) : Action → Option System
  | .pass seconds => some { s with now := s.now + seconds }
  | .addIntegration id => some { s with integrations := (id, true) :: s.integrations }
  | .setActive id active =>
    some { s with integrations := s.integrations.map fun e => if e.1 = id then (id, active) else e }
  | .deleteIntegration id => some { s with integrations := s.integrations.filter (·.1 != id) }
  | .addIssue id => some { s with issues := id :: s.issues }
  | .deleteIssue id => some { s with issues := s.issues.filter (· != id) }
  | .addMonitor id => some { s with monitors := id :: s.monitors }
  | .deleteMonitor id => some { s with monitors := s.monitors.filter (· != id) }
  | .record integration kind issue =>
    if s.isActive integration = some true then some (s.enqueue integration (.issue issue) kind)
    else none
  | .monitorChanges monitor changes integrations =>
    some (s.monitorChanges monitor changes integrations)
  | .startTick integration => some { s with ticks := s.ticks ++ [⟨integration, [.pluck]⟩] }
  | .perform tick outcome =>
    match s.ticks[tick]? with
    | some ⟨integration, op :: rest⟩ =>
      let (rows, next) := s.perform integration outcome op
      some { s with rows, ticks := s.ticks.set tick ⟨integration, next ++ rest⟩ }
    | _ => none
  | .endTick tick =>
    match s.ticks[tick]? with
    | some ⟨_, []⟩ => some { s with ticks := s.ticks.eraseIdx tick }
    | _ => none
  | .kill tick =>
    if tick < s.ticks.length then some { s with ticks := s.ticks.eraseIdx tick } else none
  | .cleanUp =>
    some { s with rows := s.rows.filter fun row =>
      !((row.status == .sent || row.status == .skipped) && row.updatedAt < s.now - 86400) &&
      !(row.exhausted s.now && row.updatedAt < s.now - 7 * 86400) }

end System

end SolidTrace.Notifications
