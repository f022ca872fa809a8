import Mathlib.Data.List.Dedup
import SolidTrace.Monitors.Evaluation

/-!
# A Monitor's states and what its Integrations are told

A run moves each group's state to what it found and writes a row to the outbox for every change, in
one transaction that first checks that the Monitor is the version the run read. A save that makes
the groups' firing mean something else, and a deletion, resolve the firing groups and forget the
states. An Integration that is unlinked is told that they are resolved. Every transaction is one
action below. Runs may overlap: the lease that keeps them apart is left out.
-/

namespace SolidTrace.Monitors

inductive Status where
  | ok
  | firing
deriving DecidableEq, Repr

/-- The status of a group that fires, or does not. -/
def Status.of : Bool → Status
  | true => .firing
  | false => .ok

/-- Where one group stands. -/
structure MonitorState where
  groupKey : String
  status : Status
  since : ℤ
  lastValue : Option ℚ
  lastBaseline : Option ℚ
deriving DecidableEq

inductive NotificationKind where
  | monitorFiring
  | monitorResolved
  | monitorMatched
deriving DecidableEq, Repr

/-- Why a group resolved though no run found it ok. -/
inductive ResolveReason where
  | kindChanged
  | turnedOff
  | compareChanged
  | deleted
  | unlinked
deriving DecidableEq, Repr

/-- What a message says of a change. -/
structure Payload where
  column : Option String
  operator : Option Operator
  threshold : Option ℚ
  range : Option (ℤ × ℤ)
  baselineSetting : Option Baseline
  baselineRange : Option (ℤ × ℤ)
  value : Option ℚ
  baseline : Option ℚ
  change : Option ℚ
  noData : Bool
  absent : Bool
  reason : Option ResolveReason
  total : Option ℕ
deriving DecidableEq

/-- A change of one group, to be told. -/
structure GroupChange where
  kind : NotificationKind
  groupKey : String
  payload : Payload
deriving DecidableEq

/-- A row of the outbox about the Monitor. -/
structure Notification where
  integration : ℕ
  change : GroupChange
deriving DecidableEq

/-- A recorded run. -/
structure MonitorRun where
  ranAt : ℤ
  error : Option String
  firing : Option ℕ
  matched : Option ℕ
deriving DecidableEq

def changedDuringRun : String :=
  "The Monitor was changed during this run, so the run changed nothing. The next run checks it again."

/-- A run that is going: the Monitor as it read it, with its version, and its time. -/
structure RunGoing where
  monitor : LogMonitor
  version : ℤ
  now : ℤ

/-- A Monitor with its `updated_at`, none once it is deleted, the Integrations linked to it and those
that are active, its groups' states, its rows in the outbox, its runs, and those going. -/
structure MonitorSystem where
  monitor : Option (LogMonitor × ℤ)
  links : List ℕ
  active : ℕ → Bool
  states : List MonitorState
  notifications : List Notification
  runs : List MonitorRun
  going : List RunGoing

/-- What every change of a run says. -/
def facts (m : LogMonitor) (found : Found) : Payload where
  column := some found.column
  operator := m.operator
  threshold := m.threshold
  range := some found.range
  baselineSetting := if found.baselineRange.isSome then m.baseline else none
  baselineRange := found.baselineRange
  value := none
  baseline := none
  change := none
  noData := false
  absent := false
  reason := none
  total := none

/-- The Baseline and the change of a reading, comparing the change. -/
def changeFacts (m : LogMonitor) (reading : Reading) (payload : Payload) : Payload :=
  if m.comparesTheChange then
    { payload with
      baseline := reading.baseline, change := changeFact reading.value reading.baseline }
  else payload

/-- The state of a group. -/
def stateOf (states : List MonitorState) (key : String) : Option MonitorState :=
  states.find? fun state => state.groupKey = key

/-- The change a group that a run read owes. -/
def groupChange (m : LogMonitor) (found : Found) (states : List MonitorState) (key : String)
    (reading : Reading) (firing : Bool) : Option GroupChange :=
  let state := stateOf states key
  if firing = state.any fun state => state.status = .firing then none
  else
    let noData := if firing then reading.value.isNone
      else state.any fun state => state.lastValue.isNone
    some ⟨if firing then .monitorFiring else .monitorResolved, key,
      changeFacts m reading { facts m found with value := reading.value, noData }⟩

/-- A group's state after a run that read it, if that changes it. -/
def movedState (now : ℤ) (states : List MonitorState) (key : String) (reading : Reading)
    (firing : Bool) : Option MonitorState :=
  let status := Status.of firing
  match stateOf states key with
  | none => some ⟨key, status, now, reading.value, reading.baseline⟩
  | some state =>
    if state.status = status ∧ state.lastValue = reading.value ∧
      state.lastBaseline = reading.baseline then none
    else some ⟨key, status, if state.status = status then state.since else now, reading.value,
      reading.baseline⟩

/-- Write a state under its group key. -/
def upsert (states : List MonitorState) (row : MonitorState) : List MonitorState :=
  if states.any fun state => state.groupKey = row.groupKey then
    states.map fun state => if state.groupKey = row.groupKey then row else state
  else states ++ [row]

/-- What moving the states gives. -/
structure Moved where
  states : List MonitorState
  changes : List GroupChange
  firing : ℕ

/-- The firing states of groups that a run read no row of. -/
def absentStates (found : Found) (states : List MonitorState) : List MonitorState :=
  (states.filter fun state => state.groupKey ∉ found.groups.map Prod.fst).filter fun state =>
    state.status = .firing

/-- The states after a run decided each group it read: an ok state of a group without a row is
deleted, and what changed is written. -/
def statesAfter (now : ℤ) (found : Found) (states : List MonitorState)
    (decided : List ((String × Reading) × Bool)) : List MonitorState :=
  let changed := decided.filterMap fun group =>
    movedState now states group.1.1 group.1.2 group.2
  let cleared := (absentStates found states).map fun state =>
    (⟨state.groupKey, .ok, now, none, none⟩ : MonitorState)
  let kept := states.filter fun state =>
    state.groupKey ∈ found.groups.map Prod.fst || state.status = .firing
  (changed ++ cleared).foldl upsert kept

/-- Move each group's state to what a run found, and tell what changed. A group with no row is ok: a
firing one resolves, and an ok one is forgotten. Where a comparison raises, nothing is written. -/
def moveStates (m : LogMonitor) (now : ℤ) (found : Found) (states : List MonitorState) :
    Option Moved := do
  let decided ← found.groups.mapM fun group => (fires m group.2).map fun firing => (group, firing)
  let changes := decided.filterMap fun group =>
    groupChange m found states group.1.1 group.1.2 group.2
  let resolved := (absentStates found states).map fun state =>
    (⟨.monitorResolved, state.groupKey, changeFacts m noData { facts m found with
      absent := true, noData := state.lastValue.isNone }⟩ : GroupChange)
  some {
    states := statesAfter now found states decided
    changes := changes ++ resolved
    firing := (decided.filter Prod.snd).length }

/-- The ranges the states were last read over, when the Monitor wasn't saved after that run. -/
def lastRanges (runs : List MonitorRun) (was : LogMonitor) (version : ℤ) :
    Option ((ℤ × ℤ) × (ℤ × ℤ)) := do
  let ranAt ← ((runs.filter fun run => run.error.isNone).map MonitorRun.ranAt).max?
  if version ≤ ranAt then
    some (LogMonitor.window ranAt was.rangeMinutes,
      LogMonitor.baselineWindow ranAt was.rangeMinutes was.baseline)
  else none

/-- What is told when a Monitor's firing groups are resolved for a reason other than a run: they are
described by the settings they fired under. -/
def resolvedChanges (s : MonitorSystem) (was : LogMonitor) (version : ℤ) (reason : ResolveReason) :
    List GroupChange :=
  let change : Bool := was.compare = .change
  let ranges := if change then lastRanges s.runs was version else none
  (s.states.filter fun state => state.status = .firing).map fun state =>
    ⟨.monitorResolved, state.groupKey, {
      column := none
      operator := was.operator
      threshold := was.threshold
      range := ranges.map Prod.fst
      baselineSetting := if change then was.baseline else none
      baselineRange := ranges.map Prod.snd
      value := state.lastValue
      baseline := if change then state.lastBaseline else none
      change := if change then changeFact state.lastValue state.lastBaseline else none
      noData := false
      absent := false
      reason := some reason
      total := none }⟩

/-- Write the rows of changes for each of some Integrations that is active. -/
def MonitorSystem.monitorChanges (s : MonitorSystem) (changes : List GroupChange)
    (integrations : List ℕ) : MonitorSystem :=
  { s with
    notifications := s.notifications ++ changes.flatMap fun change =>
      (integrations.filter s.active).map fun integration => ⟨integration, change⟩ }

/-- Resolve the firing groups and forget the states. -/
def MonitorSystem.resolveGroups (s : MonitorSystem) (was : LogMonitor) (version : ℤ)
    (reason : ResolveReason) : MonitorSystem :=
  { s.monitorChanges (resolvedChanges s was version reason) s.links with states := [] }

/-- An Integration that is unlinked is told that what fires is resolved. -/
def MonitorSystem.resolveGroupsFor (s : MonitorSystem) (m : LogMonitor) (version : ℤ)
    (integration : ℕ) : MonitorSystem :=
  s.monitorChanges (resolvedChanges s m version .unlinked) [integration]

/-- Why a save resolves the groups, if it does. -/
def resolveReason (was saved : LogMonitor) : Option ResolveReason :=
  if was.kind = .threshold ∧ saved.kind ≠ .threshold then some .kindChanged
  else if was.disabledAt = none ∧ saved.disabledAt ≠ none then some .turnedOff
  else if saved.kind = .threshold ∧ was.compare ≠ saved.compare then some .compareChanged
  else none

/-- The Monitor once a save has written the settings it changed. -/
def mergeSettings (was saved current : LogMonitor) : LogMonitor where
  name := if was.name = saved.name then current.name else saved.name
  kind := if was.kind = saved.kind then current.kind else saved.kind
  compare := if was.compare = saved.compare then current.compare else saved.compare
  operator := if was.operator = saved.operator then current.operator else saved.operator
  threshold := if was.threshold = saved.threshold then current.threshold else saved.threshold
  baseline := if was.baseline = saved.baseline then current.baseline else saved.baseline
  minimum := if was.minimum = saved.minimum then current.minimum else saved.minimum
  query := if was.query = saved.query then current.query else saved.query
  project := if was.project = saved.project then current.project else saved.project
  rangeMinutes := if was.rangeMinutes = saved.rangeMinutes then current.rangeMinutes
    else saved.rangeMinutes
  intervalMinutes := if was.intervalMinutes = saved.intervalMinutes then current.intervalMinutes
    else saved.intervalMinutes
  notifyByGroup := if was.notifyByGroup = saved.notifyByGroup then current.notifyByGroup
    else saved.notifyByGroup
  alertOnNoData := if was.alertOnNoData = saved.alertOnNoData then current.alertOnNoData
    else saved.alertOnNoData
  disabledAt := if was.disabledAt = saved.disabledAt then current.disabledAt else saved.disabledAt

/-- What happens to a Monitor. A save is of the Monitor as its saver loaded it, `was` of `version`,
to the settings `saved`, and may set the Integrations. `read` ends a Threshold run with what
EventStore answers, `matched` a Match run, and `die` a run whose process ended. A Monitor is deleted
as it was loaded, too. -/
inductive MonitorAction where
  | start (now : ℤ)
  | read (run : ℕ) (retentionDays : ℤ) (current : Answer) (baseline : Option Answer)
  | matched (run : ℕ) (answer : Except String ℕ)
  | die (run : ℕ)
  | save (was : LogMonitor) (version : ℤ) (saved : LogMonitor) (updatedAt : ℤ)
      (integrations : Option (List ℕ))
  | setActive (integration : ℕ) (active : Bool)
  | deleteIntegration (integration : ℕ)
  | destroy (was : LogMonitor) (version : ℤ)

namespace MonitorSystem

/-- A Monitor just created, with the Integrations it tells. -/
def created (m : LogMonitor) (version : ℤ) (integrations : List ℕ) (active : ℕ → Bool) :
    MonitorSystem where
  monitor := some (m, version)
  links := integrations.dedup
  active := active
  states := []
  notifications := []
  runs := []
  going := []

/-- Record a run. -/
def finish (s : MonitorSystem) (now : ℤ) (error : Option String) (firing matched : Option ℕ) :
    MonitorSystem :=
  { s with runs := s.runs ++ [⟨now, error, firing, matched⟩] }

/-- Record what a run found, if the Monitor is still the version it read. A deleted Monitor records
nothing. -/
def record (s : MonitorSystem) (run : RunGoing) (write : MonitorSystem → Option MonitorSystem) :
    Option MonitorSystem :=
  match s.monitor with
  | none => some s
  | some current =>
    if current.2 ≠ run.version then some (s.finish run.now (some changedDuringRun) none none)
    else write s

/-- End a Threshold run. A comparison that raises writes nothing. -/
def runThreshold (toJson : List (String × Cell) → String) (s : MonitorSystem) (run : RunGoing)
    (retentionDays : ℤ) (current : Answer) (baseline : Option Answer) : Option MonitorSystem :=
  match readThreshold toJson run.monitor run.now retentionDays current baseline with
  | .error error => s.record run fun s => some (s.finish run.now (some error) none none)
  | .ok found => s.record run fun s => do
    let moved ← moveStates run.monitor run.now found s.states
    some (({ s with states := moved.states }.finish run.now none (some moved.firing) none)
      |>.monitorChanges moved.changes s.links)

/-- End a Match run. -/
def runMatch (s : MonitorSystem) (run : RunGoing) (answer : Except String ℕ) :
    Option MonitorSystem :=
  match answer with
  | .error error => s.record run fun s => some (s.finish run.now (some error) none none)
  | .ok total => s.record run fun s =>
    let change : GroupChange := ⟨.monitorMatched, "", ⟨none, none, none, none, none, none, none, none,
      none, false, false, none, some total⟩⟩
    some ((s.finish run.now none none (some total)).monitorChanges
      (if 0 < total then [change] else []) s.links)

/-- Set the linked Integrations: those no longer linked are told first. -/
def setIntegrations (s : MonitorSystem) (m : LogMonitor) (version : ℤ) (integrations : List ℕ) :
    MonitorSystem :=
  let removed := s.links.filter fun link => link ∉ integrations
  let told := removed.foldl (fun s integration => s.resolveGroupsFor m version integration) s
  { told with
    links := s.links.filter (· ∈ integrations) ++
      integrations.dedup.filter fun integration => integration ∉ s.links }

/-- Save a Monitor, in one transaction. -/
def save (s : MonitorSystem) (current : LogMonitor × ℤ) (was : LogMonitor) (version : ℤ)
    (saved : LogMonitor) (updatedAt : ℤ) (integrations : Option (List ℕ)) : MonitorSystem :=
  let updated := if saved = was then current else (mergeSettings was saved current.1, updatedAt)
  let s := { s with monitor := some updated }
  let s := match resolveReason was saved with
    | some reason => s.resolveGroups was version reason
    | none => s
  match integrations with
  | some integrations =>
    s.setIntegrations saved (if saved = was then version else updatedAt) integrations
  | none => s

/-- One action. -/
def step (toJson : List (String × Cell) → String) (s : MonitorSystem) :
    MonitorAction → Option MonitorSystem
  | .start now => do
    let current ← s.monitor
    if current.1.enabled then some { s with going := s.going ++ [⟨current.1, current.2, now⟩] }
    else none
  | .read i retentionDays current baseline => do
    let run ← s.going[i]?
    if run.monitor.kind = .threshold then
      let ended := (s.runThreshold toJson run retentionDays current baseline).getD s
      some { ended with going := s.going.eraseIdx i }
    else none
  | .matched i answer => do
    let run ← s.going[i]?
    if run.monitor.kind = .match then
      some { (s.runMatch run answer).getD s with going := s.going.eraseIdx i }
    else none
  | .die i => some { s with going := s.going.eraseIdx i }
  | .save was version saved updatedAt integrations => do
    let current ← s.monitor
    let saved := saved.forgetTheBaseline
    if saved.valid then some (s.save current was version saved updatedAt integrations) else none
  | .setActive integration active =>
    some { s with active := Function.update s.active integration active }
  | .deleteIntegration integration =>
    some { s with
      links := s.links.filter (· ≠ integration)
      active := Function.update s.active integration false }
  | .destroy was version => do
    let _ ← s.monitor
    some { s.resolveGroups was version .deleted with monitor := none, links := [], runs := [] }

/-- The action leaves an Integration active and linked. -/
def keeps (integration : ℕ) (_ : MonitorSystem) : MonitorAction → Prop
  | .save _ _ _ _ (some integrations) => integration ∈ integrations
  | .setActive other active => other = integration → active = true
  | .deleteIntegration other => other ≠ integration
  | _ => True

end MonitorSystem

end SolidTrace.Monitors
