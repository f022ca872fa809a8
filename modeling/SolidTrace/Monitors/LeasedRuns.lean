import SolidTrace.Lib.Transition
import SolidTrace.Monitors.MonitorStates

/-!
# Runs and saves of one Monitor

A run works on the Monitor as it was loaded, holds the Monitor's lease until it ends, and makes its
requests to EventStore between transactions. A Match run counts a timeout as it comes, and after three
starts again from the newest Log batch. A save works on a loaded Monitor, too, and writes only the
columns it changed. Any save or load may come between two steps of a run. `updated_at` is a count of
the saves here, so every save changes it.
-/

namespace SolidTrace.Monitors

open Storage

def timeoutsBeforeSkipping : ℕ := 3

/-- The most Logs a Match run lists. -/
def matchedLogsListed : ℕ := 10

/-- The columns of a Monitor that only its Match runs and arming write. Times are in seconds. -/
structure MatchRow where
  ingestCursor : Option UUID
  ingestCursorAt : Option ℤ
  timeoutsInARow : ℕ
  logsSkippedAt : Option ℤ
deriving DecidableEq

/-- A Monitor as some process loaded it. -/
structure Loaded where
  monitor : LogMonitor
  version : ℤ
  row : MatchRow

/-- How far a run is: asking EventStore for what it reads, asking for the newest Log batch, or about to
record an error. -/
inductive RunStage where
  | reading
  | startingAgain (skipping : Bool) (error : Option String)
  | failing (error : String)

/-- Whether a run is to leave Logs unread. -/
def RunStage.skips : RunStage → Bool
  | .startingAgain skipping _ => skipping
  | _ => false

/-- A run that holds the lease, with the timeouts in a row it has in memory. -/
structure LeasedRun where
  loaded : Loaded
  now : ℤ
  timeoutsInARow : ℕ
  stage : RunStage

/-- What EventStore answers a Match run that reads. -/
structure MatchAnswer where
  ingestCursor : UUID
  total : ℕ
  logs : ℕ

/-- What happened to the Monitor, the newest first: a Match run that EventStore timed out, a run
recorded as ok or not, the Monitor armed, or armed by a run that skipped the Logs since its cursor. -/
inductive MatchEvent where
  | timedOut
  | ok
  | failed
  | armed
  | skipped
deriving DecidableEq, Repr

/-- What a run may change of a Monitor beside its own record. -/
structure Snapshot where
  states : List MonitorState
  notifications : List Notification
  row : MatchRow
deriving DecidableEq

/-- A Monitor, the Monitors loaded from it, and the run that holds its lease. `history` and `left`,
what the last save left until a run of the Monitor as saved takes the lease, are not stored. -/
structure LeasedSystem where
  system : MonitorSystem
  row : MatchRow
  loads : List Loaded
  run : Option LeasedRun
  history : List MatchEvent
  left : Option Snapshot

/-- The Monitor was saved turned on though it was loaded turned off. -/
def turnedOn (loaded : Loaded) (saved : LogMonitor) : Bool :=
  loaded.monitor.disabledAt.isSome && saved.disabledAt.isNone

/-- Whether saving checks the Query with EventStore. -/
def queryCheckNeeded (loaded : Loaded) (saved : LogMonitor) : Bool :=
  loaded.monitor.query ≠ saved.query || loaded.monitor.kind ≠ saved.kind ||
    loaded.monitor.project ≠ saved.project ||
    (saved.kind = .threshold && loaded.monitor.rangeMinutes ≠ saved.rangeMinutes) ||
    turnedOn loaded saved

/-- Whether a Match monitor saved now starts its runs from the newest Log batch. -/
def arms (loaded : Loaded) (saved : LogMonitor) : Bool :=
  queryCheckNeeded loaded saved && saved.kind = .match &&
    (loaded.row.ingestCursor.isNone || loaded.monitor.project ≠ saved.project ||
      loaded.monitor.kind ≠ saved.kind || turnedOn loaded saved)

/-- Start a Match monitor's runs from a Log batch, kept at a time. -/
def MatchRow.arm (row : MatchRow) (cursor : UUID) (now : ℤ) : MatchRow :=
  { row with ingestCursor := some cursor, ingestCursorAt := some now, timeoutsInARow := 0 }

/-- The columns once a save has written those it changed. -/
def MatchRow.merge (was saved current : MatchRow) : MatchRow where
  ingestCursor := if was.ingestCursor = saved.ingestCursor then current.ingestCursor
    else saved.ingestCursor
  ingestCursorAt := if was.ingestCursorAt = saved.ingestCursorAt then current.ingestCursorAt
    else saved.ingestCursorAt
  timeoutsInARow := if was.timeoutsInARow = saved.timeoutsInARow then current.timeoutsInARow
    else saved.timeoutsInARow
  logsSkippedAt := if was.logsSkippedAt = saved.logsSkippedAt then current.logsSkippedAt
    else saved.logsSkippedAt

/-- What happens to a Monitor: it is loaded, a loaded one takes the lease for a run, the run's requests
are answered, it records an error or its process dies, and a loaded one is saved with other settings,
arming a Match monitor from the cursor EventStore answers. -/
inductive LeaseAction where
  | load
  | take (load : ℕ) (now : ℤ)
  | readTable (retentionDays : ℤ) (current : Answer) (baseline : Option Answer)
  | readLogs (answer : MatchAnswer)
  | rejected (error : String)
  | timedOut (error : String)
  | newestBatch (cursor : UUID)
  | noNewestBatch (why : String)
  | recordError
  | die
  | save (load : ℕ) (saved : LogMonitor) (integrations : Option (List ℕ)) (cursor : UUID) (now : ℤ)

namespace LeasedRun

/-- The run as its transactions know it. -/
def going (run : LeasedRun) : RunGoing := ⟨run.loaded.monitor, run.loaded.version, run.now⟩

/-- A run just started. -/
def start (loaded : Loaded) (now : ℤ) : LeasedRun where
  loaded := loaded
  now := now
  timeoutsInARow := loaded.row.timeoutsInARow
  stage :=
    if loaded.monitor.kind = .threshold then .reading
    else if loaded.row.ingestCursor.isNone then .startingAgain false none
    else if timeoutsBeforeSkipping ≤ loaded.row.timeoutsInARow then .startingAgain true none
    else .reading

/-- What the record of a run that started again says, if its reading timed out. -/
def startedAgainNote (error : Option String) : Option String :=
  error.map fun error => error ++ " Runs timed out " ++ toString timeoutsBeforeSkipping ++
    " times in a row, so the Monitor started again from the newest Logs and skipped those ingested " ++
    "since its last run."

end LeasedRun

namespace LeasedSystem

/-- What a run may change. -/
def snapshot (s : LeasedSystem) : Snapshot := ⟨s.system.states, s.system.notifications, s.row⟩

/-- Whether the Monitor is still the version that was loaded. -/
def unchanged (s : LeasedSystem) (loaded : Loaded) : Bool :=
  s.system.monitor.any fun current => current.2 = loaded.version

/-- What recording a run tells: ok when the run it recorded is. -/
def outcome (before after : MonitorSystem) : MatchEvent :=
  if (after.runs.drop before.runs.length).any fun run => run.error.isNone then .ok else .failed

/-- The run records what it found, and ends. -/
def endRun (s : LeasedSystem) (system : MonitorSystem) (row : MatchRow) (event : MatchEvent) :
    LeasedSystem :=
  { s with system := system, row := row, run := none, history := event :: s.history }

/-- Load the Monitor. -/
def load (s : LeasedSystem) : Option LeasedSystem := do
  let current ← s.system.monitor
  return { s with loads := s.loads ++ [⟨current.1, current.2, s.row⟩] }

/-- A run of a loaded Monitor takes the lease. -/
def take (s : LeasedSystem) (i : ℕ) (now : ℤ) : Option LeasedSystem := do
  let loaded ← s.loads[i]?
  if s.run.isNone && loaded.monitor.enabled then
    return { s with
      run := some (LeasedRun.start loaded now)
      left := if s.unchanged loaded then none else some s.snapshot }
  else none

/-- A Threshold run reads its tables. A comparison that raises records nothing. -/
def readTable (toJson : List (String × Cell) → String) (s : LeasedSystem) (run : LeasedRun)
    (retentionDays : ℤ) (current : Answer) (baseline : Option Answer) : LeasedSystem :=
  let system := (s.system.runThreshold toJson run.going retentionDays current baseline).getD s.system
  s.endRun system s.row (outcome s.system system)

/-- A Match run is answered Logs: it keeps the answer's cursor, and its message, if any match, says
that Logs were skipped, if any were. -/
def readLogs (s : LeasedSystem) (run : LeasedRun) (answer : MatchAnswer) : LeasedSystem :=
  let total := max answer.total (min answer.logs matchedLogsListed)
  let system := (s.system.runMatch run.going (.ok total)).getD s.system
  let row : MatchRow := if s.unchanged run.loaded then
      { ingestCursor := some answer.ingestCursor
        ingestCursorAt := some run.now
        timeoutsInARow := 0
        logsSkippedAt := if 0 < total then none else s.row.logsSkippedAt }
    else s.row
  s.endRun system row (outcome s.system system)

/-- A Match run EventStore stopped at its timeout: the first two in a row are counted at once, in a
write of their own, and the third starts again. -/
def timedOut (s : LeasedSystem) (run : LeasedRun) (error : String) : LeasedSystem :=
  let timeouts := run.timeoutsInARow + 1
  let history := MatchEvent.timedOut :: s.history
  if timeouts < timeoutsBeforeSkipping then
    { s with
      row := { s.row with timeoutsInARow := timeouts }
      run := some { run with timeoutsInARow := timeouts, stage := .failing error }
      history := history }
  else { s with
    run := some { run with timeoutsInARow := timeouts, stage := .startingAgain true (some error) }
    history := history }

/-- A run starting again is answered the newest Log batch. -/
def newestBatch (s : LeasedSystem) (run : LeasedRun) (skipping : Bool) (error : Option String)
    (cursor : UUID) : LeasedSystem :=
  let system := (s.system.record run.going fun system =>
    some (system.finish run.now (LeasedRun.startedAgainNote error) none (some 0))).getD s.system
  if s.unchanged run.loaded then
    let armed := run.loaded.row.arm cursor run.now
    s.endRun system { armed with
        logsSkippedAt := if skipping then some run.now else run.loaded.row.logsSkippedAt }
      (if skipping then .skipped else .armed)
  else s.endRun system s.row .failed

/-- A run starting again isn't answered: it writes the timeouts it counted. -/
def noNewestBatch (s : LeasedSystem) (run : LeasedRun) (error : Option String) (why : String) :
    LeasedSystem :=
  let message := match error with
    | some error => error ++ " Starting again from the newest Logs failed: " ++ why
    | none => why
  { s with
    row := if run.timeoutsInARow = run.loaded.row.timeoutsInARow then s.row
      else { s.row with timeoutsInARow := run.timeoutsInARow }
    run := some { run with stage := .failing message } }

/-- A run records its error. -/
def recordError (s : LeasedSystem) (run : LeasedRun) (error : String) : LeasedSystem :=
  let system := (s.system.record run.going fun system =>
    some (system.finish run.now (some error) none none)).getD s.system
  s.endRun system s.row .failed

/-- Save a loaded Monitor with other settings. -/
def save (s : LeasedSystem) (i : ℕ) (saved : LogMonitor) (integrations : Option (List ℕ))
    (cursor : UUID) (now : ℤ) : Option LeasedSystem := do
  let loaded ← s.loads[i]?
  let current ← s.system.monitor
  let saved := saved.forgetTheBaseline
  if saved.valid && saved ≠ loaded.monitor then
    let system := s.system.save current loaded.monitor loaded.version saved (current.2 + 1)
      integrations
    let row := if arms loaded saved then
        loaded.row.merge (loaded.row.arm cursor now) s.row else s.row
    return { s with
      system := system
      row := row
      history := if arms loaded saved then .armed :: s.history else s.history
      left := some ⟨system.states, system.notifications, row⟩ }
  else none

/-- One step. -/
def step (toJson : List (String × Cell) → String) (s : LeasedSystem) :
    LeaseAction → Option LeasedSystem
  | .load => s.load
  | .take i now => s.take i now
  | .readTable retentionDays current baseline => do
    let run ← s.run
    match run.loaded.monitor.kind, run.stage with
    | .threshold, .reading => return s.readTable toJson run retentionDays current baseline
    | _, _ => none
  | .readLogs answer => do
    let run ← s.run
    match run.loaded.monitor.kind, run.stage with
    | .match, .reading => return s.readLogs run answer
    | _, _ => none
  | .rejected error => do
    let run ← s.run
    match run.loaded.monitor.kind, run.stage with
    | .match, .reading => return { s with run := some { run with stage := .failing error } }
    | _, _ => none
  | .timedOut error => do
    let run ← s.run
    match run.loaded.monitor.kind, run.stage with
    | .match, .reading => return s.timedOut run error
    | _, _ => none
  | .newestBatch cursor => do
    let run ← s.run
    match run.stage with
    | .startingAgain skipping error => return s.newestBatch run skipping error cursor
    | _ => none
  | .noNewestBatch why => do
    let run ← s.run
    match run.stage with
    | .startingAgain _ error => return s.noNewestBatch run error why
    | _ => none
  | .recordError => do
    let run ← s.run
    match run.stage with
    | .failing error => return s.recordError run error
    | _ => none
  | .die => return { s with run := none }
  | .save i saved integrations cursor now => s.save i saved integrations cursor now

/-- A Monitor just created: a Match monitor is armed. -/
def created (m : LogMonitor) (integrations : List ℕ) (active : ℕ → Bool) (cursor : UUID)
    (now : ℤ) : LeasedSystem where
  system := MonitorSystem.created m 0 integrations active
  row := if m.kind = .match then ⟨some cursor, some now, 0, none⟩ else ⟨none, none, 0, none⟩
  loads := []
  run := none
  history := if m.kind = .match then [.armed] else []
  left := none

end LeasedSystem

end SolidTrace.Monitors
