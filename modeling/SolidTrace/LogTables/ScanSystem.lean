import SolidTrace.Lib.Transition
import SolidTrace.LogTables.BinnedScan

/-!
# Table scans beside inserts and deletions

Scans read the generations and the cache one bin at a time, run their query, and keep the complete
bins one at a time. An insert's Logs become visible at one instant, if at all, and then the
generations of their hours change. Deleting days drops one partition after another, and then
changes the generations of each day touched. Each of these is one action, and they interleave in
any order.
-/

namespace SolidTrace.LogTables

open Storage (ProjectID)

/-- A Log, as it is stored. -/
structure StoredLog (Rest : Type*) where
  project : ProjectID
  log : Log Rest

/-- A UTC day of a Project's Logs, and when it starts. -/
structure ProjectDay where
  project : ProjectID
  start : ℤ
  whole : day ∣ start
deriving DecidableEq

/-- Whether a time is in a day. -/
def ProjectDay.holds (d : ProjectDay) (t : ℤ) : Prop := d.start ≤ t ∧ t < d.start + day

instance (d : ProjectDay) (t : ℤ) : Decidable (d.holds t) := inferInstanceAs (Decidable (_ ∧ _))

/-- A call of `InsertLogBatches` or `dropPartitions` that has not returned. -/
inductive Write (Rest : Type*) where
  /-- Whether ClickHouse has taken the Logs, and whether their hours' generations have changed. -/
  | insert (project : ProjectID) (logs : List (Log Rest)) (taken bumped : Bool)
  /-- The days of all its partitions, those still to be dropped, and those tried whose generations
  have not changed. -/
  | drop (days todo touched : List ProjectDay)

/-- Where a scan is. -/
inductive ScanPhase where
  /-- At the head of its loop, with the bins read so far and the start of the next. -/
  | reading (bins : List TimeBin) (start : ℤ)
  /-- With the key of the bin at `start` read, about to look it up. -/
  | looking (bins : List TimeBin) (start : ℤ) (key : BinKey)
  /-- About to run its query. Without bins, that is the one query over the whole range. -/
  | querying (bins : List TimeBin)
  /-- With bins left to keep, and the table it then returns. -/
  | putting (kept : List (BinKey × List Row)) (table : List Row)
  | returned (table : List Row)
  /-- Its query failed. -/
  | queryFailed
  /-- A row of its query did not start with its bin. -/
  | badRow

/-- A scan that runs or has run. `disturbed` records whether a write that touches its range was
under way as it began, or has begun since. No code reads it. -/
structure Scan (Q : Type*) where
  scan : TableScan Q
  phase : ScanPhase
  disturbed : Bool

structure System (Q Rest : Type*) where
  logs : List (StoredLog Rest)
  generations : Generations
  cache : BinCache
  writes : List (Write Rest)
  scans : List (Scan Q)

inductive Action (Q Rest : Type*) where
  | startScan (scan : TableScan Q)
  /-- The scan goes on by one step: a bin's key, a look in the cache, its query, or a bin kept. -/
  | scanStep (i : ℕ)
  | failQuery (i : ℕ)
  | startInsert (project : ProjectID) (logs : List (Log Rest))
  | takeLogs (i : ℕ)
  | bumpInsert (i : ℕ)
  | returnInsert (i : ℕ)
  | startDrop (days : List ProjectDay)
  /-- `goes`: whether the day's Logs went. `ok`: whether ClickHouse answered so. -/
  | dropNext (i : ℕ) (goes ok : Bool)
  | bumpDay (i : ℕ) (d : ProjectDay)
  | returnDrop (i : ℕ)

section Writes

variable {Rest : Type*}

/-- Whether a write touches a range of a Project's Logs. -/
def Write.touches (w : Write Rest) (project : ProjectID) (range : ℤ × ℤ) : Bool :=
  match w with
  | .insert p logs _ _ => p = project && logs.any fun log => range.1 ≤ log.time && log.time < range.2
  | .drop days _ _ =>
    days.any fun d => d.project = project && d.start < range.2 && range.1 < d.start + day

/-- Whether Logs can be stored. -/
def checkStorable (logs : List (Log Rest)) : Bool :=
  logs.all fun log => firstStorableTime ≤ log.time && log.time < endOfStorableTime

/-- The Logs that are left without a day's. -/
def withoutDay (d : ProjectDay) (logs : List (StoredLog Rest)) : List (StoredLog Rest) :=
  logs.filter fun stored => ¬ (stored.project = d.project ∧ d.holds stored.log.time)

end Writes

namespace System

variable {Q Rest : Type*} (B : BinnedQueries Q Rest)

/-- After a start, with any Logs stored. -/
def start (logs : List (StoredLog Rest)) (maxBytes : ℤ) : System Q Rest :=
  ⟨logs, fun _ => 0, BinCache.new maxBytes, [], []⟩

/-- A Project's Logs. -/
def projectLogs (s : System Q Rest) (project : ProjectID) : List (Log Rest) :=
  (s.logs.filter fun stored => stored.project = project).map StoredLog.log

/-- A write begins. -/
def startWrite (s : System Q Rest) (w : Write Rest) : System Q Rest :=
  { s with
    writes := s.writes ++ [w]
    scans := s.scans.map fun sc =>
      { sc with disturbed := sc.disturbed || w.touches sc.scan.project (scanRange B sc.scan) } }

/-- Where `ScanLogTable` begins: with too many bins, or an empty range, it runs the one query. -/
def firstPhase (scan : TableScan Q) : ScanPhase :=
  let range := scanRange B scan
  let size := B.size scan.query
  if range.1 < range.2 ∧ ¬ (range.2 - range.1).tdiv size > maxCachedBins then
    .reading [] (firstBin range.1 size)
  else .querying []

/-- A scan begins. -/
def startScan (s : System Q Rest) (scan : TableScan Q) : System Q Rest :=
  let disturbed := s.writes.any fun w => w.touches scan.project (scanRange B scan)
  { s with scans := s.scans ++ [⟨scan, firstPhase B scan, disturbed⟩] }

/-- The loop over the bins goes on to one that lies in the range and whose hours have ended. -/
def readKey (g : Generations) (scan : TableScan Q) (bins : List TimeBin) (start : ℤ) : ScanPhase :=
  let size := B.size scan.query
  if start + size ≤ (scanRange B scan).2 ∧ ended scan.now (start + size) then
    .looking bins start
      ⟨scan.project, B.key scan.query, size, start, generationsOf g scan.project start (start + size)⟩
  else .querying bins

/-- What a scan's query leaves it with. -/
def runQuery (logs : List (Log Rest)) (scan : TableScan Q) (bins : List TimeBin) : ScanPhase :=
  let range := scanRange B scan
  if bins.isEmpty then .returned (queryTable B scan [range] logs)
  else
    let spans := uncachedSpans range.2 range.1 bins
    let rows := if spans.isEmpty then [] else queryTable B scan spans logs
    match finishScan scan.limit bins rows with
    | some (kept, table) => .putting kept table
    | none => .badRow

/-- What a scan does next, on its own: its new phase and the cache. -/
def scanNext (s : System Q Rest) (scan : TableScan Q) : ScanPhase → Option (ScanPhase × BinCache)
  | .reading bins start => some (readKey B s.generations scan bins start, s.cache)
  | .looking bins start key =>
    let found := s.cache.get key
    let bin : TimeBin := ⟨start, start + B.size scan.query, key, found.1.getD [], found.1.isSome⟩
    some (.reading (bins ++ [bin]) (start + B.size scan.query), found.2)
  | .querying bins => some (runQuery B (s.projectLogs scan.project) scan bins, s.cache)
  | .putting [] table => some (.returned table, s.cache)
  | .putting ((key, rows) :: kept) table => some (.putting kept table, s.cache.put key rows)
  | .returned _ => none
  | .queryFailed => none
  | .badRow => none

/-- Move a scan to a phase. -/
def setPhase (s : System Q Rest) (i : ℕ) (sc : Scan Q) (next : ScanPhase × BinCache) :
    System Q Rest :=
  { s with scans := s.scans.set i { sc with phase := next.1 }, cache := next.2 }

def step (s : System Q Rest) : Action Q Rest → Option (System Q Rest)
  | .startScan scan => some (s.startScan B scan)
  | .scanStep i =>
    match s.scans[i]? with
    | some sc => (s.scanNext B sc.scan sc.phase).map (s.setPhase i sc)
    | none => none
  | .failQuery i =>
    match s.scans[i]? with
    | some ⟨scan, .querying bins, disturbed⟩ =>
      some (s.setPhase i ⟨scan, .querying bins, disturbed⟩ (.queryFailed, s.cache))
    | _ => none
  | .startInsert project logs =>
    if checkStorable logs then some (s.startWrite B (.insert project logs false false)) else none
  | .takeLogs i =>
    match s.writes[i]? with
    | some (.insert project logs false false) =>
      some { s with
        logs := s.logs ++ logs.map fun log => ⟨project, log⟩
        writes := s.writes.set i (.insert project logs true false) }
    | _ => none
  | .bumpInsert i =>
    match s.writes[i]? with
    | some (.insert project logs taken false) =>
      some { s with
        generations := bump s.generations project logs
        writes := s.writes.set i (.insert project logs taken true) }
    | _ => none
  | .returnInsert i =>
    match s.writes[i]? with
    | some (.insert _ _ _ true) => some { s with writes := s.writes.eraseIdx i }
    | _ => none
  | .startDrop days => some (s.startWrite B (.drop days days []))
  | .dropNext i goes ok =>
    match s.writes[i]? with
    | some (.drop days (d :: todo) touched) =>
      some { s with
        logs := if goes then withoutDay d s.logs else s.logs
        writes := s.writes.set i (.drop days (if ok then todo else []) (touched.insert d)) }
    | _ => none
  | .bumpDay i d =>
    match s.writes[i]? with
    | some (.drop days [] touched) =>
      if d ∈ touched then
        some { s with
          generations := LogTables.bumpDay s.generations d.project d.start
          writes := s.writes.set i (.drop days [] (touched.erase d)) }
      else none
    | _ => none
  | .returnDrop i =>
    match s.writes[i]? with
    | some (.drop _ [] []) => some { s with writes := s.writes.eraseIdx i }
    | _ => none

end System

end SolidTrace.LogTables
