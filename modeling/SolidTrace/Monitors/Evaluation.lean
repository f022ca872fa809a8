import SolidTrace.Monitors.LogMonitor

/-!
# What a Threshold run finds

A run reads the Query's table over its range and, comparing the change, over the Baseline's. Each
row is a group keyed by its columns other than the number, or the worst row is the one group. A
table that can't be compared is an error.
-/

namespace SolidTrace.Monitors

open Storage

/-- A cell of a table. -/
inductive Cell where
  | null
  | bool (value : Bool)
  | number (value : ℚ)
  | string (value : String)
  | json (text : String)
deriving DecidableEq

/-- A column's type. -/
inductive ColumnType where
  | bool
  | number
  | string
  | time
  | timespan
  | json
deriving DecidableEq, Repr

/-- A column of a table. -/
structure Column where
  name : String
  type : ColumnType
deriving DecidableEq, Repr

/-- A Query's table. -/
structure Table where
  columns : List Column
  rows : List (List Cell)
  truncated : Bool

/-- What EventStore answers a run: a table, Logs, or why it failed. -/
inductive Answer where
  | table (table : Table)
  | logs
  | failed (error : String)

/-- A group's number this run and, comparing the change, its Baseline. `value` is none for no
data. -/
structure Reading where
  value : Option ℚ
  baseline : Option ℚ
deriving DecidableEq

/-- No data. -/
def noData : Reading := ⟨none, none⟩

/-- What a Threshold run reads: the number column's name, the ranges, and each group's reading. -/
structure Found where
  column : String
  range : ℤ × ℤ
  baselineRange : Option (ℤ × ℤ)
  groups : List (String × Reading)

def tableCut : String :=
  "The Query gives more than 10,000 rows, the most EventStore answers, so a run can't compare every " ++
    "group with the threshold: group by fewer columns, or filter the Logs before the summarize."

def notATable : String :=
  "The Query returns Logs, not a table: end it in a summarize of one number."

def outOfTime : String :=
  "The Query over the current range took the run's 30 s, leaving none to read the Baseline's: " ++
    "filter the Logs before the summarize, or shorten the range."

def numbersPerGroup (numbers : ℕ) : String :=
  "The Query gives " ++ toString numbers ++
    " numbers per group, not one to compare with the threshold."

/-- Set a key of a hash that keeps the order in which its keys were first set. -/
def setKey {K V : Type*} [DecidableEq K] (key : K) (value : V) : List (K × V) → List (K × V)
  | [] => [(key, value)]
  | entry :: rest =>
    if entry.1 = key then (key, value) :: rest else entry :: setKey key value rest

/-- A key's value in such a hash. -/
def fetchKey {K V : Type*} [DecidableEq K] (key : K) (entries : List (K × V)) : Option V :=
  (entries.find? fun entry => entry.1 = key).map Prod.snd

/-- The table of an answer. -/
def tableOf : Answer → Except String Table
  | .failed error => .error error
  | .logs => .error notATable
  | .table table => if table.truncated then .error tableCut else .ok table

/-- A group's columns by name, as JSON; the empty key when there is no column but the number. -/
def groupKey (toJson : List (String × Cell) → String) (columns : List Column) (row : List Cell)
    (numberAt : ℕ) : String :=
  let pairs := columns.zipIdx.filterMap fun column =>
    if column.2 = numberAt then none else some (column.1.name, row.getD column.2 .null)
  let group := pairs.foldl (fun group pair => setKey pair.1 pair.2 group) []
  if group = [] then "" else toJson group

/-- Add a row's number under its group key: rows sharing a key keep the worse number, and a row
without a number is left out. -/
def addRow (toJson : List (String × Cell) → String) (m : LogMonitor) (columns : List Column)
    (numberAt : ℕ) (rows : List (String × ℚ)) (row : List Cell) : List (String × ℚ) :=
  match row.getD numberAt .null with
  | .number value =>
    let key := groupKey toJson columns row numberAt
    match fetchKey key rows with
    | some other => setKey key (worse abs m.operator other value) rows
    | none => setKey key value rows
  | _ => rows

/-- The number column's name, and each row's group key and number. -/
def rowsOf (toJson : List (String × Cell) → String) (m : LogMonitor) (table : Table) :
    Except String (String × List (String × ℚ)) :=
  match table.columns.zipIdx.filter fun column => column.1.type = .number with
  | [(column, numberAt)] =>
    .ok (column.name, table.rows.foldl (addRow toJson m table.columns numberAt) [])
  | numbers => .error (numbersPerGroup numbers.length)

/-- The number a reading compares with the threshold. -/
def compared (m : LogMonitor) (reading : Reading) : Change :=
  let value := reading.value.getD 0
  if m.comparesTheChange then change value (reading.baseline.getD 0) else Change.of value

/-- The one group of a Monitor that doesn't notify by group: the worst row's, of those that reach
the minimum when any do. -/
def theWorst (m : LogMonitor) (readings : List (String × Reading)) : List (String × Reading) :=
  let values := readings.map Prod.snd
  let big := values.filter fun reading => !m.belowMinimum (reading.value.getD 0) reading.baseline
  let candidates := (if big = [] then values else big).map fun reading =>
    (reading, compared m reading)
  match candidates with
  | [] => []
  | first :: rest =>
    let worst := rest.foldl (fun number candidate => worse Change.abs m.operator number candidate.2)
      first.2
    match candidates.find? fun candidate => candidate.2 = worst with
    | some candidate => [("", candidate.1)]
    | none => []

/-- The groups of a run's readings: each row's, or the worst row's as the one group, or no data. -/
def groupsOf (m : LogMonitor) (readings : List (String × Reading)) : List (String × Reading) :=
  let groups := if m.notifyByGroup then readings else theWorst m readings
  if groups = [] ∧ m.alertOnNoData then [("", noData)] else groups

/-- The number column's name and each row's reading. Comparing the change, a row with none in the
Baseline rises from zero. -/
def readingsOf (toJson : List (String × Cell) → String) (m : LogMonitor) (current : Answer)
    (baseline : Option Answer) : Except String (String × List (String × Reading)) := do
  let rows ← rowsOf toJson m (← tableOf current)
  if m.comparesTheChange then
    match baseline with
    | none => throw outOfTime
    | some answer =>
      let before ← rowsOf toJson m (← tableOf answer)
      return (rows.1, rows.2.map fun row =>
        (row.1, ⟨some row.2, some ((fetchKey row.1 before.2).getD 0)⟩))
  else return (rows.1, rows.2.map fun row => (row.1, ⟨some row.2, none⟩))

/-- What a Threshold run at `now` reads. `baseline` is what is answered over the Baseline range, none
where the first answer took the run's time. -/
def readThreshold (toJson : List (String × Cell) → String) (m : LogMonitor) (now retentionDays : ℤ)
    (current : Answer) (baseline : Option Answer) : Except String Found :=
  match if m.comparesTheChange then m.baselinePastRetention retentionDays else none with
  | some problem => .error ("The Baseline " ++ problem ++ ".")
  | none => do
    let readings ← readingsOf toJson m current baseline
    return {
      column := readings.1
      range := LogMonitor.window now m.rangeMinutes
      baselineRange := if m.comparesTheChange then
          some (LogMonitor.baselineWindow now m.rangeMinutes m.baseline) else none
      groups := groupsOf m readings.2 }

/-- Whether a group fires, none where the comparison raises. -/
def fires (m : LogMonitor) (reading : Reading) : Option Bool :=
  match reading.value with
  | none => some true
  | some value => m.breached value reading.baseline

section Keys

/-- Setting a key keeps the order of the keys, a new one last. -/
theorem map_fst_setKey {K V : Type*} [DecidableEq K] (key : K) (value : V) (entries : List (K × V)) :
    (setKey key value entries).map Prod.fst = if key ∈ entries.map Prod.fst then
      entries.map Prod.fst else entries.map Prod.fst ++ [key] := by
  induction entries with
  | nil => simp [setKey]
  | cons entry rest ih =>
    by_cases hkey : entry.1 = key
    · simp [setKey, hkey]
    · by_cases hrest : key ∈ rest.map Prod.fst
      · simp only [setKey, hkey, if_false, List.map_cons, ih, hrest, if_true, List.mem_cons, or_true]
      · simp only [setKey, hkey, if_false, List.map_cons, ih, hrest, List.mem_cons, or_false,
          Ne.symm hkey, List.cons_append]

/-- Setting a key keeps the keys apart. -/
theorem nodup_setKey {K V : Type*} [DecidableEq K] (key : K) (value : V) (entries : List (K × V))
    (hentries : (entries.map Prod.fst).Nodup) : ((setKey key value entries).map Prod.fst).Nodup := by
  rw [map_fst_setKey]
  split
  · exact hentries
  · rename_i hkey
    refine List.nodup_append.mpr ⟨hentries, by simp, fun other hother last hlast hsame => hkey ?_⟩
    rw [List.mem_singleton.mp hlast] at hsame
    exact hsame ▸ hother

variable {toJson : List (String × Cell) → String} {m : LogMonitor}

/-- The groups of a table have keys of their own. -/
theorem foldl_addRow_nodup (columns : List Column) (numberAt : ℕ) (table : List (List Cell))
    (rows : List (String × ℚ)) (hrows : (rows.map Prod.fst).Nodup) :
    ((table.foldl (addRow toJson m columns numberAt) rows).map Prod.fst).Nodup := by
  induction table generalizing rows with
  | nil => exact hrows
  | cons row rest ih =>
    refine ih _ ?_
    rw [addRow]
    split
    · dsimp only
      split <;> exact nodup_setKey _ _ _ hrows
    · exact hrows

/-- Each group of a table has one row. -/
theorem rowsOf_nodup {table : Table} {rows : String × List (String × ℚ)}
    (hrows : rowsOf toJson m table = .ok rows) : (rows.2.map Prod.fst).Nodup := by
  rw [rowsOf] at hrows
  split at hrows
  · obtain rfl := Except.ok.inj hrows
    exact foldl_addRow_nodup _ _ _ _ List.nodup_nil
  · simp at hrows

/-- The readings of a run have keys of their own. -/
theorem readingsOf_nodup {current : Answer} {baseline : Option Answer}
    {readings : String × List (String × Reading)}
    (hreadings : readingsOf toJson m current baseline = .ok readings) :
    (readings.2.map Prod.fst).Nodup := by
  rw [readingsOf] at hreadings
  cases htable : tableOf current with
  | error error => simp [htable, bind, Except.bind] at hreadings
  | ok table =>
    cases hrows : rowsOf toJson m table with
    | error error => simp [htable, hrows, bind, Except.bind] at hreadings
    | ok rows =>
      have hnodup := rowsOf_nodup hrows
      simp only [htable, hrows, bind, Except.bind] at hreadings
      split at hreadings
      · split at hreadings
        · simp [throw, throwThe, MonadExceptOf.throw] at hreadings
        · split at hreadings
          · simp at hreadings
          · split at hreadings
            · simp at hreadings
            · obtain rfl := Except.ok.inj hreadings
              simpa [List.map_map, Function.comp_def] using hnodup
      · obtain rfl := Except.ok.inj hreadings
        simpa [List.map_map, Function.comp_def] using hnodup

/-- The worst readings have keys of their own. -/
theorem theWorst_nodup (readings : List (String × Reading)) :
    ((theWorst m readings).map Prod.fst).Nodup := by
  rw [theWorst]
  dsimp only
  split
  · exact List.nodup_nil
  · split
    · exact List.nodup_singleton _
    · exact List.nodup_nil

/-- No two groups of a run have one key. -/
theorem readThreshold_nodup {now retentionDays : ℤ} {current : Answer} {baseline : Option Answer}
    {found : Found} (hfound : readThreshold toJson m now retentionDays current baseline = .ok found) :
    (found.groups.map Prod.fst).Nodup := by
  rw [readThreshold] at hfound
  split at hfound
  · simp at hfound
  · cases hreadings : readingsOf toJson m current baseline with
    | error error => simp [hreadings, bind, Except.bind] at hfound
    | ok readings =>
      simp only [hreadings, bind, Except.bind] at hfound
      obtain rfl := Except.ok.inj hfound
      have hgroups : ((if m.notifyByGroup then readings.2 else theWorst m readings.2).map
          Prod.fst).Nodup := by
        split
        · exact readingsOf_nodup hreadings
        · exact theWorst_nodup _
      rw [groupsOf]
      generalize (if m.notifyByGroup then readings.2 else theWorst m readings.2) = groups at hgroups ⊢
      dsimp only
      split
      · exact List.nodup_singleton _
      · exact hgroups

end Keys

end SolidTrace.Monitors
