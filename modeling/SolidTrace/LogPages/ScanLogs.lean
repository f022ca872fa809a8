import SolidTrace.Lib.StrictOrder
import SolidTrace.LogQuery.Filter

/-!
# Scanning a Project's newest Logs

A Project's Logs, in the logs table and in old Log files, and the scan that reads spans of time,
newest first, from both. Times are in nanoseconds since 1970; a Log is stored to the microsecond, and
a time in SQL is cut to it.
-/

namespace SolidTrace.LogPages

open LogQuery

section Logs

/-- An id, in the order of its bytes. -/
abbrev UUID := BitVec 128

/-- A Log: its time, in microseconds, its id, and its row where it is stored. -/
structure Log where
  micros : ℤ
  id : UUID
  row : Sql.Row

def Log.time (log : Log) : ℤ := 1000 * log.micros

/-- A Log's place in newest-first order: by time, then id. With the nil id, it is the place after
every Log at its time. -/
structure LogPosition where
  time : ℤ
  id : UUID
deriving DecidableEq

/-- The order of Logs newest first: by time, then id. -/
def newerFirst (a b : Log) : Prop :=
  b.micros < a.micros ∨ a.micros = b.micros ∧ b.id.toNat ≤ a.id.toNat

instance : DecidableRel newerFirst := fun _ _ => inferInstanceAs (Decidable (_ ∨ _))

/-- One of a Project's old Log files: its name and where it is, the span of its Logs, and how its
day's files keep each Field, time among them. -/
structure OldLogFile where
  key : String
  directory : String
  isLocal : Bool
  remote : Bool
  fromTime : ℤ
  toTime : ℤ
  columns : Columns
  logs : List Log
  spans : ∀ log ∈ logs, fromTime ≤ log.time ∧ log.time + 1000 ≤ toTime
  timed : ∀ ch, ∀ log ∈ logs, (columns.builtIn "time").eval ch [] log.row = some (.time log.micros)

def OldLogFile.path (file : OldLogFile) : String := file.directory ++ "/" ++ file.key

/-- Logs' times lie in the days a partition can name: from 1970 to June 2149. -/
def firstStorableTime : ℤ := 0

def endOfStorableTime : ℤ := 5661792000 * 1000000000

/-- A Project's Logs, and whether a bucket is configured. No two Logs have the same time and id, and
each is at a time that a Log can be stored at, which the table keeps in its column. -/
structure Project where
  table : List Log
  files : List OldLogFile
  bucket : Bool
  timed : ∀ ch, ∀ log ∈ table,
    ((clickHouseColumns none).builtIn "time").eval ch [] log.row = some (.time log.micros)
  apart : (table ++ files.flatMap OldLogFile.logs).Pairwise fun a b => a.micros = b.micros → a.id ≠ b.id
  storable : ∀ log ∈ table ++ files.flatMap OldLogFile.logs,
    firstStorableTime ≤ log.time ∧ log.time < endOfStorableTime

end Logs

section OldFiles

/-- Whether the span of a file's Logs overlaps one of time. -/
def inSpan (span : ℤ × ℤ) (file : OldLogFile) : Bool :=
  file.fromTime < span.2 && span.1 < file.toTime

/-- Whether reads can read a file. One only in a bucket no longer configured can't be. -/
def OldLogFile.readable (bucket : Bool) (file : OldLogFile) : Bool :=
  file.isLocal || (file.remote && bucket)

/-- A Project's old files that overlap a span. -/
def Project.sources (p : Project) (span : ℤ × ℤ) : List OldLogFile :=
  p.files.filter fun file => inSpan span file && file.readable p.bucket

/-- The times of the oldest and newest Logs a Project's old files may hold in a range. -/
def Project.oldSpan (p : Project) (range : ℤ × ℤ) : Option (ℤ × ℤ) :=
  let files := p.files.filter (inSpan range)
  match (files.map fun file => max file.fromTime range.1).min?,
    (files.map fun file => min file.toTime range.2 - 1000).max? with
  | some first, some last => some (first, last)
  | _, _ => none

/-- `ORDER BY time DESC, toUInt128(id) DESC LIMIT …`. -/
def newest (limit : ℕ) (logs : List Log) : List Log := (logs.insertionSort newerFirst).take limit

/-- The Logs of files that meet conditions, each with the path of its file. -/
def union (sources : List OldLogFile) (conditions : OldLogFile → Log → Bool) : List (Log × String) :=
  sources.flatMap fun file => (file.logs.filter (conditions file)).map fun log => (log, file.path)

/-- Up to a limit of the Logs of files that meet conditions, newest first, in two steps: first the
newest Logs' times, ids and paths, then those Logs whole, from the files that hold them. -/
def newestLogs (sources : List OldLogFile) (conditions : OldLogFile → Log → Bool) (limit : ℕ) :
    List Log :=
  match ((union sources conditions).insertionSort fun a b => newerFirst a.1 b.1).take limit with
  | [] => []
  | row :: rest =>
    let first := rest.foldl (fun first row => min first row.1.time) row.1.time
    let stop := rest.foldl (fun stop row => max stop (row.1.time + 1000)) (row.1.time + 1000)
    let holding := sources.filter fun file =>
      (row :: rest).any fun row => ("/" ++ file.key).toList.isSuffixOf row.2.toList
    newest limit ((union holding fun file log =>
      conditions file log && within (first, stop) log.micros &&
        (row :: rest).any fun row => row.1.id = log.id).map Prod.fst)

end OldFiles

section Scan

variable (ch : ClickHouse)

/-- What a scan of a Project's newest Logs in a time range is asked. -/
structure LogScan where
  fromTime : ℤ
  toTime : ℤ
  /-- If set, only Logs after it in newest-first order, strictly older, are scanned. -/
  after : Option LogPosition
  filter : Columns → Filter
  limit : ℕ
  /-- Whether the scan has spent its budget, once it has read so many spans. -/
  spent : ℕ → Bool

/-- Logs, newest first, and where the scan of older Logs goes on, if there may be any. -/
structure LogScanPage where
  logs : List Log
  next : Option LogPosition

/-- `[from, to)` within the times a Log can be stored at. -/
def storableRange (fromTime toTime : ℤ) : ℤ × ℤ :=
  (max fromTime firstStorableTime, min toTime endOfStorableTime)

/-- The end of a scan's range: a page goes on where the one before it ended. Logs at the same time as
its last, with a lower id, follow it. -/
def endAfter (after : Option LogPosition) (toTime : ℤ) : ℤ :=
  match after with
  | some pos => if pos.time < toTime then if pos.id = 0 then pos.time else pos.time + 1000 else toTime
  | none => toTime

/-- The range a scan reads. -/
def LogScan.range (scan : LogScan) : ℤ × ℤ :=
  let (fromTime, toTime) := storableRange scan.fromTime scan.toTime
  (fromTime, endAfter scan.after toTime)

/-- The day of a time in SQL. -/
def toDate (t : ℤ) : ℤ := t / 1000 / 86400000000

/-- The times of the oldest and the newest of a Project's Logs on the days that a range touches. -/
def Project.timeSpan (p : Project) (range : ℤ × ℤ) : Option (ℤ × ℤ) :=
  let times := (p.table.filter fun log =>
    toDate range.1 ≤ toDate log.time && toDate log.time ≤ toDate (range.2 - 1000)).map Log.time
  match times.min?, times.max? with
  | some oldest, some newest => some (oldest, newest)
  | _, _ => none

/-- The times of the oldest and newest Logs of a range, in the table and the old files. -/
def Project.span (p : Project) (range : ℤ × ℤ) : Option (ℤ × ℤ) :=
  match p.timeSpan range, p.oldSpan range with
  | some table, some old => some (min table.1 old.1, max table.2 old.2)
  | none, old => old
  | table, none => table

/-- The conditions on a Log after a position: `time < … OR id < …`. -/
def afterCondition (after : Option LogPosition) (log : Log) : Bool :=
  match after with
  | some pos => pos.id = 0 || log.micros < pos.time / 1000 || log.id.toNat < pos.id.toNat
  | none => true

/-- The conditions of a read of a span. -/
def LogScan.conditions (scan : LogScan) (span : ℤ × ℤ) (cols : Columns) (log : Log) : Bool :=
  within span log.micros && afterCondition scan.after log && (scan.filter cols).keeps ch log.row

/-- Up to a limit of the Logs of a span in the table, newest first. -/
def Project.queryLogs (p : Project) (scan : LogScan) (span : ℤ × ℤ) (limit : ℕ) : List Log :=
  newest limit (p.table.filter (scan.conditions ch span (clickHouseColumns none)))

/-- Up to a limit of the Logs of a span in the old files, newest first. -/
def Project.scanOld (p : Project) (scan : LogScan) (span : ℤ × ℤ) (limit : ℕ) : List Log :=
  newestLogs (p.sources span) (fun file => scan.conditions ch span file.columns) limit

/-- Two lists of Logs, each newest first, merged up to a limit. -/
def mergeNewestFirst (a b : List Log) (limit : ℕ) : List Log := MergeTake.mergeTake newerFirst a b limit

def hour : ℤ := 3600 * 1000000000

/-- The longest span of time a scan reads in one query. -/
def maxScanSpan : ℤ := 24 * hour

/-- Where a span that ends at a time starts: the first with the newest Log's hour, each after it
twice the last. -/
def spanStart (spanTo span : ℤ) : ℤ :=
  if 0 < span then spanTo - span else spanTo - 1000 - (spanTo - 1000) % hour

/-- The start of a span is before its end. -/
theorem spanStart_lt (spanTo span : ℤ) : spanStart spanTo span < spanTo := by
  unfold spanStart
  split
  · omega
  · have := Int.emod_nonneg (spanTo - 1000) (show hour ≠ 0 by decide)
    omega

/-- The spans of a scan, from the newest not yet read on, with what those before them found. -/
def Project.scanSpans (p : Project) (scan : LogScan) (fromTime : ℤ) (read : ℕ) (spanTo span : ℤ)
    (logs : List Log) : LogScanPage :=
  if fromTime < spanTo then
    let spanFrom := max (spanStart spanTo span) fromTime
    let left := scan.limit - logs.length
    let logs := logs ++ mergeNewestFirst (p.queryLogs ch scan (spanFrom, spanTo) left)
      (p.scanOld ch scan (spanFrom, spanTo) left) left
    if scan.limit ≤ logs.length then
      ⟨logs, logs.getLast?.map fun last => ⟨last.time, last.id⟩⟩
    else if scan.spent read ∧ fromTime < spanFrom then ⟨logs, some ⟨spanFrom, 0⟩⟩
    else p.scanSpans scan fromTime (read + 1) spanFrom (min (max (2 * span) hour) maxScanSpan) logs
  else ⟨logs, none⟩
termination_by (spanTo - fromTime).toNat
decreasing_by
  have := spanStart_lt spanTo span
  omega

/-- Up to a limit of a Project's Logs that meet a condition, newest first. -/
def Project.scanLogs (p : Project) (scan : LogScan) : LogScanPage :=
  if scan.range.1 < scan.range.2 ∧ 0 < scan.limit then
    match p.span scan.range with
    | none => ⟨[], none⟩
    | some (oldest, newest) =>
      p.scanSpans ch scan (max scan.range.1 oldest) 0 (min scan.range.2 (newest + 1000)) 0 []
  else ⟨[], none⟩

end Scan

end SolidTrace.LogPages
