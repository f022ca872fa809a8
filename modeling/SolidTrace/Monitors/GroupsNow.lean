import Mathlib.Data.Finset.Card
import Mathlib.Data.List.Sort
import SolidTrace.Monitors.WorstRow

/-!
# The form's preview of the groups

Before a Monitor comparing the value is saved, its form reads the Query's table in the browser and
shows the groups a run would find. It keys a group by the JSON of an object of its columns, and so do
runs, by a hash's. The browser orders an object's keys itself when they are array indices, so it tells
fewer groups apart than a run does when a column holds JSON objects that differ only in that order.
-/

namespace SolidTrace.Monitors

open Lib

/-- A JSON value as a program holds it parsed. An object has each key once, in an order. -/
inductive Json where
  | null
  | bool (value : Bool)
  | number (value : ℚ)
  | string (value : String)
  | array (items : List Json)
  | object (entries : List (String × Json))

/-- The array index a key of an object is, none when it is another key. -/
def arrayIndex (key : String) : Option ℕ :=
  let digits := key.toList
  let index := digits.foldl (fun index digit => 10 * index + (digit.toNat - '0'.toNat)) 0
  -- An index is written without leading zeros.
  if digits ≠ [] ∧ digits.all Char.isDigit ∧ (digits.head? ≠ some '0' ∨ digits.length = 1) ∧
    index < 4294967295 then some index else none

/-- An object's entries in the browser's order: array indices first, ascending, then the others in
the order they were set. -/
def ownOrder {V : Type*} (entries : List (String × V)) : List (String × V) :=
  (entries.filter fun entry => (arrayIndex entry.1).isSome).insertionSort
      (fun a b => (arrayIndex a.1).getD 0 ≤ (arrayIndex b.1).getD 0) ++
    entries.filter fun entry => (arrayIndex entry.1).isNone

mutual

/-- A JSON value as the browser holds it. -/
def Json.browser : Json → Json
  | .array items => .array (browserItems items)
  | .object entries => .object (ownOrder (browserEntries entries))
  | value => value

def browserItems : List Json → List Json
  | [] => []
  | item :: rest => item.browser :: browserItems rest

def browserEntries : List (String × Json) → List (String × Json)
  | [] => []
  | (key, value) :: rest => (key, value.browser) :: browserEntries rest

end

/-- A cell's value as a run holds it. `parse` reads the JSON of a cell. -/
def Cell.held (parse : String → Json) : Cell → Json
  | .null => .null
  | .bool value => .bool value
  | .number value => .number value
  | .string value => .string value
  | .json text => parse text

/-- A row's columns other than the number, as a run's hash holds them. -/
def rowGroup (parse : String → Json) (columns : List Column) (numberAt : ℕ) (row : List Cell) :
    List (String × Json) :=
  let pairs := columns.zipIdx.filterMap fun column =>
    if column.2 = numberAt then none else some (column.1.name, row.getD column.2 .null)
  (pairs.foldl (fun group pair => setKey pair.1 pair.2 group) []).map fun entry =>
    (entry.1, entry.2.held parse)

/-- A row's columns other than the number, as the browser's object holds them. -/
def browserGroup (parse : String → Json) (columns : List Column) (numberAt : ℕ) (row : List Cell) :
    List (String × Json) :=
  let pairs := columns.zipIdx.filterMap fun column =>
    if column.2 = numberAt then none
    else some (column.1.name, ((row.getD column.2 .null).held parse).browser)
  ownOrder (pairs.foldl (fun group pair => setKey pair.1 pair.2 group) [])

/-- The operators that compare the value. -/
inductive ValueOperator where
  | gt
  | ge
  | lt
  | le
deriving DecidableEq, Repr

def ValueOperator.operator : ValueOperator → Operator
  | .gt => .gt
  | .ge => .ge
  | .lt => .lt
  | .le => .le

namespace GroupsNow

/-- What the form has of the rule. -/
structure Rule where
  notifyByGroup : Bool
  alertOnNoData : Bool
  operator : Option ValueOperator
  threshold : Option ℚ

/-- One group a run would find: its columns, its number (none for no data) and whether it fires. -/
structure GroupNow where
  group : List (String × Json)
  value : Option ℚ
  firing : Bool

/-- Whether a value passes the threshold. -/
def breached (value : ℚ) (operator : ValueOperator) (threshold : ℚ) : Bool :=
  match operator with
  | .gt => threshold < value
  | .ge => threshold ≤ value
  | .lt => value < threshold
  | .le => value ≤ threshold

/-- Whether a group fires. Without an operator and a threshold only no data does. -/
def fires (rule : Rule) : Option ℚ → Bool
  | none => true
  | some value => match rule.operator, rule.threshold with
    | some operator, some threshold => breached value operator threshold
    | _, _ => false

/-- Of two numbers, the one that passes the threshold sooner. -/
def worse (operator : Option ValueOperator) (a b : ℚ) : ℚ :=
  match operator with
  | some .lt | some .le => min a b
  | _ => max a b

/-- Add a row's number to its group. -/
def addRow (parse : String → Json) (stringify : List (String × Json) → String) (rule : Rule)
    (columns : List Column) (numberAt : ℕ) (groups : List (String × GroupNow)) (row : List Cell) :
    List (String × GroupNow) :=
  match row.getD numberAt .null with
  | .number value =>
    let group := if rule.notifyByGroup then browserGroup parse columns numberAt row else []
    let key := stringify group
    let kept := fetchKey key groups
    setKey key ⟨group, kept.elim value fun kept => worse rule.operator (kept.value.getD 0) value,
      false⟩ groups
  | _ => groups

end GroupsNow

section Hashes

variable {K V W : Type*} [DecidableEq K]

/-- Changing every value commutes with setting one. -/
theorem setKey_map (f : V → W) (key : K) (value : V) (entries : List (K × V)) :
    (setKey key value entries).map (fun entry => (entry.1, f entry.2)) =
      setKey key (f value) (entries.map fun entry => (entry.1, f entry.2)) := by
  induction entries with
  | nil => rfl
  | cons entry rest ih =>
    by_cases hkey : entry.1 = key
    · simp [setKey, hkey]
    · simp [setKey, hkey, ih]

/-- Changing every value commutes with setting many. -/
theorem foldl_setKey_map (f : V → W) (pairs entries : List (K × V)) :
    (pairs.foldl (fun group pair => setKey pair.1 pair.2 group) entries).map
        (fun entry => (entry.1, f entry.2)) =
      (pairs.map fun pair => (pair.1, f pair.2)).foldl
        (fun group pair => setKey pair.1 pair.2 group)
        (entries.map fun entry => (entry.1, f entry.2)) := by
  induction pairs generalizing entries with
  | nil => rfl
  | cons pair rest ih => rw [List.foldl_cons, ih, List.map_cons, List.foldl_cons, setKey_map]

/-- Keys stand in the order they were first set in. -/
theorem map_fst_foldl_setKey (pairs entries : List (K × V)) :
    (pairs.foldl (fun group pair => setKey pair.1 pair.2 group) entries).map Prod.fst =
      (pairs.map Prod.fst).foldl (fun keys key => if key ∈ keys then keys else keys ++ [key])
        (entries.map Prod.fst) := by
  induction pairs generalizing entries with
  | nil => rfl
  | cons pair rest ih => rw [List.foldl_cons, ih, List.map_cons, List.foldl_cons, map_fst_setKey]

/-- Keys collected in the order first seen: each once. -/
theorem foldl_keys_nodup (seen keys : List K) (hkeys : keys.Nodup) :
    (seen.foldl (fun keys key => if key ∈ keys then keys else keys ++ [key]) keys).Nodup := by
  induction seen generalizing keys with
  | nil => exact hkeys
  | cons key rest ih =>
    rw [List.foldl_cons]
    apply ih
    split
    · exact hkeys
    · rename_i hnew
      exact List.nodup_append.mpr ⟨hkeys, List.nodup_singleton key, by
        intro other hother last hlast hsame
        rw [List.mem_singleton.mp hlast] at hsame
        exact hnew (hsame ▸ hother)⟩

variable {R : K × V → String × W → Prop} {entries : List (K × V)} {others : List (String × W)}
variable {key : K} {other : String}

end Hashes

section Groups

/-- The browser's reading of a group is that of each of its values. -/
theorem browserEntries_eq_map (entries : List (String × Json)) :
    browserEntries entries = entries.map fun entry => (entry.1, entry.2.browser) := by
  induction entries with
  | nil => rfl
  | cons entry rest ih => rw [browserEntries, ih, List.map_cons]

/-- The browser's own order of keys is another order of the same. -/
theorem ownOrder_perm {V : Type*} (entries : List (String × V)) :
    (ownOrder entries).Perm entries := by
  have hsorted := (List.perm_insertionSort
    (fun a b : String × V => (arrayIndex a.1).getD 0 ≤ (arrayIndex b.1).getD 0)
    (entries.filter fun entry => (arrayIndex entry.1).isSome)).append_right
    (entries.filter fun entry => (arrayIndex entry.1).isNone)
  have hboth : (fun entry : String × V => (arrayIndex entry.1).isNone) =
      fun entry => !(arrayIndex entry.1).isSome := by
    funext entry
    cases arrayIndex entry.1 <;> rfl
  unfold ownOrder
  apply hsorted.trans
  rw [hboth]
  exact List.filter_append_perm _ entries

variable {parse : String → Json} {columns : List Column} {numberAt : ℕ}

/-- The browser's object is the run's hash in the browser's order. -/
theorem browserGroup_eq (row : List Cell) :
    browserGroup parse columns numberAt row =
      ownOrder (browserEntries (rowGroup parse columns numberAt row)) := by
  have hpairs : (columns.zipIdx.filterMap fun column =>
      if column.2 = numberAt then none
      else some (column.1.name, ((row.getD column.2 .null).held parse).browser)) =
      (columns.zipIdx.filterMap fun column =>
        if column.2 = numberAt then none
        else some (column.1.name, row.getD column.2 .null)).map fun pair =>
          (pair.1, (pair.2.held parse).browser) := by
    rw [List.map_filterMap]
    congr 1
    funext column
    split <;> rfl
  have hfold := foldl_setKey_map (fun cell : Cell => (cell.held parse).browser)
    (columns.zipIdx.filterMap fun column =>
      if column.2 = numberAt then none
      else some (column.1.name, row.getD column.2 .null)) []
  unfold browserGroup rowGroup
  dsimp only
  rw [browserEntries_eq_map, hpairs, List.map_map]
  exact congrArg ownOrder hfold.symm

/-- Every row's group has the same columns, each once. -/
theorem rowGroup_columns (row : List Cell) :
    (rowGroup parse columns numberAt row).map Prod.fst =
      (columns.zipIdx.filterMap fun column =>
        if column.2 = numberAt then none else some column.1.name).foldl
        (fun keys key => if key ∈ keys then keys else keys ++ [key]) [] := by
  unfold rowGroup
  dsimp only
  rw [List.map_map]
  have hfst : (Prod.fst ∘ fun entry : String × Cell => (entry.1, entry.2.held parse)) =
      Prod.fst := rfl
  rw [hfst, map_fst_foldl_setKey, List.map_filterMap]
  congr 2
  funext column
  split <;> rfl

/-- No column stands twice in a row's group. -/
theorem rowGroup_columns_nodup (row : List Cell) :
    ((rowGroup parse columns numberAt row).map Prod.fst).Nodup := by
  rw [rowGroup_columns]
  exact foldl_keys_nodup _ [] List.nodup_nil

end Groups

namespace GroupsNow

/-- A table's number columns, each with its place. -/
def numberColumns (table : Table) : List (Column × ℕ) :=
  table.columns.zipIdx.filter fun column => column.1.type = .number

/-- Whether no two of a table's groups are one to the browser only: none differ only in the order
of array indices in JSON objects. -/
def HeldAlike (parse : String → Json) (table : Table) : Prop :=
  ∀ column numberAt, numberColumns table = [(column, numberAt)] →
    ∀ row ∈ table.rows, ∀ other ∈ table.rows,
      ∀ value otherValue, row.getD numberAt .null = .number value →
        other.getD numberAt .null = .number otherValue →
        browserGroup parse table.columns numberAt row =
          browserGroup parse table.columns numberAt other →
        rowGroup parse table.columns numberAt row = rowGroup parse table.columns numberAt other

/-- The rule the form has and the Monitor a run reads it from. -/
structure Rule.SavedAs (rule : Rule) (m : LogMonitor) : Prop where
  comparesTheValue : m.comparesTheValue = true
  operator : ∃ operator, rule.operator = some operator ∧ m.operator = some operator.operator
  threshold : ∃ threshold, rule.threshold = some threshold ∧ m.threshold = some threshold
  notifyByGroup : m.notifyByGroup = rule.notifyByGroup
  alertOnNoData : m.alertOnNoData = rule.alertOnNoData

/-- A JSON writer over a run's cells. -/
def writeCells (parse : String → Json) (write : List (String × Json) → String)
    (group : List (String × Cell)) : String :=
  write (group.map fun entry => (entry.1, entry.2.held parse))

/-- A previewed group and a run's: the columns are one row's, or none, and the number and whether it
fires are the same. -/
def SameGroup (parse : String → Json) (write : List (String × Json) → String) (m : LogMonitor)
    (table : Table) (numberAt : ℕ) (now : GroupNow) (group : String × Reading) : Prop :=
  (now.group = [] ∧ group.1 = "" ∨ ∃ row ∈ table.rows,
    now.group = browserGroup parse table.columns numberAt row ∧
      group.1 = groupKey (writeCells parse write) table.columns row numberAt) ∧
  now.value = group.2.value ∧ Monitors.fires m group.2 = some now.firing

/-- Whether the preview and the run find the same groups in the same order, or refuse the table with
one message. -/
def SameFound (parse : String → Json) (write : List (String × Json) → String) (m : LogMonitor)
    (table : Table) : Except String (List GroupNow) → Except String Found → Prop
  | .error problem, .error other => problem = other
  | .ok groups, .ok found => ∃ column numberAt, numberColumns table = [(column, numberAt)] ∧
      List.Forall₂ (SameGroup parse write m table numberAt) groups found.groups
  | _, _ => False

variable {parse : String → Json} {write stringify : List (String × Json) → String}
variable {m : LogMonitor} {rule : Rule} {table : Table} {column : Column} {numberAt : ℕ}

/-- The preview and the run find as many groups, or as few. -/
theorem SameFound.length_eq {groups : Except String (List GroupNow)} {found : Except String Found}
    (hsame : SameFound parse write m table groups found) :
    groups.toOption.map List.length = found.toOption.map fun found => found.groups.length := by
  cases groups with
  | error problem => cases found with
    | error other => rfl
    | ok found => exact hsame.elim
  | ok groups => cases found with
    | error other => exact hsame.elim
    | ok found =>
      obtain ⟨column, numberAt, -, hgroups⟩ := hsame
      exact congrArg some hgroups.length_eq

/-- A rule that is saved does not compare the change. -/
theorem Rule.SavedAs.comparesTheChange (hsaved : rule.SavedAs m) : m.comparesTheChange = false := by
  have hvalue := hsaved.comparesTheValue
  simp only [LogMonitor.comparesTheValue, Bool.and_eq_true, decide_eq_true_eq] at hvalue
  simp [LogMonitor.comparesTheChange, hvalue.2]

/-- A row's number. -/
def numberOf (numberAt : ℕ) (row : List Cell) : Option ℚ :=
  match row.getD numberAt .null with
  | .number value => some value
  | _ => none

/-- Entries with unique keys in the same order are the same. -/
theorem eq_of_perm_of_nodup {V : Type*} {entries others : List (String × V)}
    (hperm : entries.Perm others) (hkeys : entries.map Prod.fst = others.map Prod.fst)
    (hnodup : (entries.map Prod.fst).Nodup) : entries = others := by
  induction entries generalizing others with
  | nil => exact hperm.nil_eq
  | cons entry rest ih =>
    match others with
    | [] => simp at hkeys
    | other :: others =>
      simp only [List.map_cons, List.cons.injEq, List.nodup_cons] at hkeys hnodup
      have hmem : other ∈ entry :: rest := hperm.mem_iff.mpr List.mem_cons_self
      have hsame : other = entry := by
        cases List.mem_cons.mp hmem with
        | inl hsame => exact hsame
        | inr hrest =>
          exact absurd (hkeys.1 ▸ List.mem_map_of_mem (f := Prod.fst) hrest) hnodup.1
      subst hsame
      rw [ih (List.perm_cons other |>.mp hperm) hkeys.2 hnodup.2]

/-- When the browser keeps the order of every JSON object in the table, or has none to order, it
tells apart what a run does, whatever the columns are called. -/
theorem heldAlike_of_browser_eq (hcells : ∀ row ∈ table.rows, ∀ entry ∈
    rowGroup parse table.columns numberAt row, entry.2.browser = entry.2)
    (hcolumns : numberColumns table = [(column, numberAt)]) : HeldAlike parse table := by
  intro other otherAt hother row hrow row' hrow' value value' hvalue hvalue' hsame
  rw [hcolumns] at hother
  obtain ⟨rfl, rfl⟩ : column = other ∧ numberAt = otherAt := by simpa using hother
  have hheld {row : List Cell} (hrow : row ∈ table.rows) :
      browserEntries (rowGroup parse table.columns numberAt row) =
        rowGroup parse table.columns numberAt row := by
    rw [browserEntries_eq_map]
    calc (rowGroup parse table.columns numberAt row).map (fun entry => (entry.1, entry.2.browser))
        = (rowGroup parse table.columns numberAt row).map id := by
          apply List.map_congr_left
          intro entry hentry
          exact Prod.ext rfl (hcells row hrow entry hentry)
      _ = rowGroup parse table.columns numberAt row := List.map_id _
  rw [browserGroup_eq, browserGroup_eq, hheld hrow, hheld hrow'] at hsame
  have hperm := (ownOrder_perm (rowGroup parse table.columns numberAt row)).symm.trans
    (hsame ▸ ownOrder_perm (rowGroup parse table.columns numberAt row'))
  exact eq_of_perm_of_nodup hperm ((rowGroup_columns row).trans (rowGroup_columns row').symm)
    (rowGroup_columns_nodup row)

section Payloads

mutual

/-- The JSON of a value whose texts need no escapes. -/
def jsonText : Json → String
  | .null => "null"
  | .bool value => toString value
  | .number value => toString value.num
  | .string value => "\"" ++ value ++ "\""
  | .array items => "[" ++ ",".intercalate (itemTexts items) ++ "]"
  | .object entries => "\x7b" ++ ",".intercalate (entryTexts entries) ++ "\x7d"

def itemTexts : List Json → List String
  | [] => []
  | item :: rest => jsonText item :: itemTexts rest

def entryTexts : List (String × Json) → List String
  | [] => []
  | (key, value) :: rest => ("\"" ++ key ++ "\":" ++ jsonText value) :: entryTexts rest

end

end Payloads

end GroupsNow

end SolidTrace.Monitors
