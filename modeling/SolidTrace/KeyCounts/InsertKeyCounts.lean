import SolidTrace.KeyCounts.MergeKeyCounts
import SolidTrace.LogProcessing.StoreLogs

/-!
# Storing the key counts

`insertKeyCounts` inserts how the Logs of an insert change their days' key counts. The counts of some
days are held in memory, and change there only once ClickHouse has answered. Log processing stores one
range of Log batches after another, and inserts a range again until an insert of it is done. Counts are
integers, int64 in the source, and ClickHouse remembers the tokens of all inserts, not of the last 10,000.
-/

namespace SolidTrace.KeyCounts

open Normalise SpaceSaving LogProcessing Storage

/-- How many (Project, day)s' key counts stay in memory. -/
def keptCountDays : ℕ := 64

structure ProjectDay where
  project : ProjectID
  day : ℤ
deriving DecidableEq

/-- A row of the key counts table: by how much a key's count on a day changes. -/
structure Row where
  projectDay : ProjectDay
  key : TypedKey
  logs : ℤ

/-- What a key's rows sum to. -/
def sumOf (rows : List Row) (projectDay : ProjectDay) (key : TypedKey) : ℤ :=
  ((rows.filter fun row => row.projectDay = projectDay ∧ row.key = key).map Row.logs).sum

/-- A day's key counts as the table sums to them. -/
def tableCounts (rows : List Row) (projectDay : ProjectDay) : Counts TypedKey where
  keys := ((rows.filter fun row => row.projectDay = projectDay).map Row.key).toFinset.filter fun key =>
    sumOf rows projectDay key ≠ 0
  count := sumOf rows projectDay
  absent key hkey := by
    by_contra hne
    refine hkey (Finset.mem_filter.2 ⟨List.mem_toFinset.2 ?_, hne⟩)
    by_contra hnone
    refine hne ?_
    rw [sumOf, List.filter_eq_nil_iff.2, List.map_nil, List.sum_nil]
    intro row hrow hrow'
    obtain ⟨hday, hkey⟩ := of_decide_eq_true hrow'
    exact hnone (List.mem_map.2 ⟨row, List.mem_filter.2 ⟨hrow, decide_eq_true hday⟩, hkey⟩)

section Logs

variable {D : Type}

/-- The counted pairs of a day's Logs, one for each Log that carried it. -/
def dayKeys (logs : List (Log D)) (day : ℤ) : List TypedKey :=
  (logs.filter fun log => LogDay log.time = day).flatMap logKeys

/-- How many Logs of a day carried each key. -/
def byDay (logs : List (Log D)) (day : ℤ) : Counts TypedKey where
  keys := (dayKeys logs day).toFinset
  count key := (dayKeys logs day).count key
  absent key hkey := by
    rw [List.count_eq_zero_of_not_mem fun hmem => hkey (List.mem_toFinset.2 hmem), Nat.cast_zero]

/-- The days with a counted key. -/
def countedDays (logs : List (Log D)) : Finset ℤ :=
  ((logs.filter fun log => !(logKeys log).isEmpty).map fun log => LogDay log.time).toFinset

end Logs

/-- A day ClickHouse took of an insert, by the insert's dedup token, and the Logs the insert was for. -/
structure Taken (D : Type) where
  token : Token
  day : ℤ
  logs : List (Log D)

def Taken.projectDay {D : Type} (t : Taken D) : ProjectDay := ⟨t.token.project, t.day⟩

/-- The key counts in memory and in ClickHouse, and what ClickHouse took, oldest first. -/
structure Store (D : Type) where
  held : Finset ProjectDay
  counts : ProjectDay → Counts TypedKey
  rows : List Row
  taken : List (Taken D)

/-- How a send ends: answered, or failed after ClickHouse took the rows of some days. -/
inductive Send where
  | answered
  | failed (took : Finset ℤ)

/-- The days of an insert that reach ClickHouse. -/
def Send.took (days : Finset ℤ) : Send → Finset ℤ
  | .answered => days
  | .failed took => days ∩ took

namespace Store

variable {D : Type}

/-- Nothing stored yet. -/
def empty : Store D := ⟨∅, fun _ => .empty, [], []⟩

/-- A day's key counts, read from the table unless they are in memory. -/
def dayCounts (s : Store D) (projectDay : ProjectDay) : Counts TypedKey :=
  if projectDay ∈ s.held then s.counts projectDay else tableCounts s.rows projectDay

/-- A day's key counts with the Logs of an insert merged. -/
def merge (s : Store D) (projectDay : ProjectDay) (logs : List (Log D)) : Merged TypedKey :=
  mergeKeyCounts (s.dayCounts projectDay) (byDay logs projectDay.day) keyCountsKept

/-- The rows an insert has for a day: what changed, and minus its count for each key evicted. -/
def dayRows (projectDay : ProjectDay) (before : Counts TypedKey) (merged : Merged TypedKey) : List Row :=
  (merged.changed.sort (· ≤ ·)).map (fun key => ⟨projectDay, key, merged.counts.count key - before.count key⟩) ++
    ((merged.evicted.sort (· ≤ ·)).filter fun key => before.count key ≠ 0).map fun key =>
      ⟨projectDay, key, -before.count key⟩

/-- The days ClickHouse takes of an insert that reaches it: it drops a day of a token it has taken. -/
def newDays (s : Store D) (token : Token) (days : Finset ℤ) : Finset ℤ :=
  days.filter fun day => ∀ t ∈ s.taken, ¬(t.token = token ∧ t.day = day)

/-- ClickHouse takes the rows of some days. -/
def take (s : Store D) (token : Token) (logs : List (Log D)) (days : Finset ℤ) : Store D :=
  let days := (s.newDays token days).sort (· ≤ ·)
  { s with
    rows := s.rows ++ days.flatMap fun day =>
      dayRows ⟨token.project, day⟩ (s.dayCounts ⟨token.project, day⟩) (s.merge ⟨token.project, day⟩ logs)
    taken := s.taken ++ days.map fun day => ⟨token, day, logs⟩ }

/-- Insert how the Logs of an insert change their Project's key counts, and keep the counts in memory
once ClickHouse has answered, unless the range may have been inserted before. -/
def insertKeyCounts (s : Store D) (token : Token) (logs : List (Log D)) (again : Bool) (send : Send) : Store D :=
  let days := countedDays logs
  if days = ∅ then s else
  let sent := s.take token logs (send.took days)
  match send with
  | .failed _ => sent
  | .answered =>
    let touched := days.image (ProjectDay.mk token.project)
    let held := if again then s.held \ touched else s.held ∪ touched
    { sent with
      held := if held.card > keptCountDays then held ∩ touched else held
      counts := fun projectDay =>
        if projectDay ∈ touched then (s.merge projectDay logs).counts else s.counts projectDay }

end Store

/-- The key counts, and how far Log processing has stored each Project: its cursor, and the end of the
range it last recorded. -/
structure System (D : Type) where
  store : Store D
  cursor : ProjectID → UUID
  recorded : ProjectID → UUID

/-- How an attempt to store a range ends. -/
inductive Ending where
  /-- It fails before its key counts are sent. -/
  | unsent
  /-- Sending its key counts fails. -/
  | unanswered (took : Finset ℤ)
  /-- It fails once its key counts are inserted. -/
  | inserted
  /-- The cursor moves past the range. -/
  | done

/-- An attempt to store a range, with the Logs its Log transform returned this time, or a restart. -/
inductive Action (D : Type) where
  | attempt (project : ProjectID) (upTo : UUID) (logs : List (Log D)) (ending : Ending)
  | restart

namespace System

variable {D : Type}

def init : System D := ⟨.empty, fun _ => .Nil, fun _ => .Nil⟩

/-- Whether a Project's recorded range is past its cursor, and so goes again. -/
def again (s : System D) (project : ProjectID) : Bool := s.cursor project < s.recorded project

/-- The dedup token of a Project's range. -/
def token (s : System D) (project : ProjectID) (upTo : UUID) : Token := ⟨project, s.cursor project, upTo⟩

/-- Record a Project's range. -/
def record (s : System D) (project : ProjectID) (upTo : UUID) : System D :=
  { s with recorded := Function.update s.recorded project upTo }

def setStore (s : System D) (store : Store D) : System D := { s with store }

/-- Insert the key counts of an attempt. -/
def insert (s : System D) (project : ProjectID) (upTo : UUID) (logs : List (Log D)) (send : Send) : System D :=
  s.setStore (s.store.insertKeyCounts (s.token project upTo) logs (s.again project) send)

/-- Move a Project's cursor past its range. -/
def move (s : System D) (project : ProjectID) (upTo : UUID) : System D :=
  { s with cursor := Function.update s.cursor project upTo }

/-- One attempt: a recorded range again, or the next one. -/
def attempt (s : System D) (project : ProjectID) (upTo : UUID) (logs : List (Log D)) : Ending → System D
  | .unsent => s.record project upTo
  | .unanswered took => (s.insert project upTo logs (.failed took)).record project upTo
  | .inserted => (s.insert project upTo logs .answered).record project upTo
  | .done => ((s.insert project upTo logs .answered).record project upTo).move project upTo

def step (s : System D) : Action D → Option (System D)
  | .attempt project upTo logs ending =>
    if s.again project then
      if upTo = s.recorded project then some (s.attempt project upTo logs ending) else none
    else if s.cursor project < upTo then some (s.attempt project upTo logs ending) else none
  | .restart => some (s.setStore { s.store with held := ∅ })

/-- The attempt that takes the cursor past a range counts each day whose counts in memory are behind the
table. -/
def countsDaysBehind (s : System D) : Action D → Prop
  | .attempt project _ logs .done => ∀ day, ⟨project, day⟩ ∈ s.store.held →
      s.store.counts ⟨project, day⟩ ≠ tableCounts s.store.rows ⟨project, day⟩ → day ∈ countedDays logs
  | _ => True

section Lemmas

variable (s : System D) (project : ProjectID) (upTo : UUID)

/-- A Project's range is as it was last recorded. -/
@[simp] theorem record_recorded : (s.record project upTo).recorded project = upTo := Function.update_self _ _ _

/-- Recording a Project's range leaves the others'. -/
theorem record_recorded_of_ne {other : ProjectID} (h : other ≠ project) :
    (s.record project upTo).recorded other = s.recorded other := Function.update_of_ne h _ _

/-- Recording a range moves no cursor. -/
@[simp] theorem record_cursor : (s.record project upTo).cursor = s.cursor := rfl

/-- Recording a range leaves the store. -/
@[simp] theorem record_store : (s.record project upTo).store = s.store := rfl

/-- The store is the one set. -/
@[simp] theorem setStore_store (store : Store D) : (s.setStore store).store = store := rfl

/-- Setting the store moves no cursor. -/
@[simp] theorem setStore_cursor (store : Store D) : (s.setStore store).cursor = s.cursor := rfl

/-- Setting the store leaves what is recorded. -/
@[simp] theorem setStore_recorded (store : Store D) : (s.setStore store).recorded = s.recorded := rfl

/-- A Project's cursor is where it was last moved. -/
@[simp] theorem move_cursor : (s.move project upTo).cursor project = upTo := Function.update_self _ _ _

/-- Moving a Project's cursor leaves the others'. -/
theorem move_cursor_of_ne {other : ProjectID} (h : other ≠ project) :
    (s.move project upTo).cursor other = s.cursor other := Function.update_of_ne h _ _

/-- Moving a cursor leaves what is recorded. -/
@[simp] theorem move_recorded : (s.move project upTo).recorded = s.recorded := rfl

/-- Moving a cursor leaves the store. -/
@[simp] theorem move_store : (s.move project upTo).store = s.store := rfl

/-- An attempt at new batches records them and inserts their counts. -/
theorem step_fresh {s : System D} {project : ProjectID} {upTo : UUID} {logs : List (Log D)} {ending : Ending}
    (hfresh : ¬s.again project) (hlt : s.cursor project < upTo) :
    s.step (.attempt project upTo logs ending) = some (s.attempt project upTo logs ending) := by
  rw [step, if_neg hfresh, if_pos hlt]

/-- An attempt made again inserts the counts of what was recorded. -/
theorem step_again {s : System D} {project : ProjectID} {upTo : UUID} {logs : List (Log D)} {ending : Ending}
    (hagain : s.again project) (hupTo : upTo = s.recorded project) :
    s.step (.attempt project upTo logs ending) = some (s.attempt project upTo logs ending) := by
  rw [step, if_pos hagain, if_pos hupTo]

end Lemmas

end System

end SolidTrace.KeyCounts
