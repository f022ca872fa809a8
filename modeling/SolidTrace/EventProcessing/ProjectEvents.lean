import SolidTrace.EventProcessing.Issues

/-!
# One Project's Event processing as a ledger

What Event processing reads and stores of a Project is its Events, cursor and recorded range in
Pebble, its rows and tokens in ClickHouse, and its guard in SQLite. Read as a ledger, these keep
the ledger's invariant as long as each Event's id comes after those written before. The guard is
then at most the cursor, or at the end of the recorded range once its rows are stored.
-/

namespace SolidTrace.EventProcessing

open Storage SortedStore SortedHistory

variable {J : Type*}

/-- What Event processing reads and stores of one Project, with the Events written for it. -/
@[ext] structure View (J : Type*) where
  history : List (Event J)
  pebble : PebbleEvents J
  table : EventsTable
  recording : Option (EventRange × List (Event J))
  seen : WithBot UUID

/-- A Project's view of the system. -/
def System.view (s : System J) (project : ProjectID) : View J where
  history := s.historyOf project
  pebble := s.pebble project
  table := s.table project
  recording := s.recording project
  seen := s.sqlite.seen project

/-- A range of the history, for the ledger. -/
def rangeOf (history : List (Event J)) (range : EventRange) : Ledger.Range (Event J) (WithBot UUID) :=
  ⟨range.after, range.through, between Event.key history range.after range.through⟩

/-- The rows of Events, as their Issue work made them. -/
structure RowsOf (reader : PayloadReader J) (db : SQLite) (project : ProjectID)
    (events : List (Event J)) (rows : List WorkedRow) : Prop where
  rows : rows.map (fun row => (row.row, row.issueID)) = events.filterMap (workedRow reader db project)
  issues : ∀ event ∈ events, HasIssue reader db project event

/-- Rows of events stay theirs as the database is extended. -/
theorem RowsOf.mono {reader : PayloadReader J} {db db' : SQLite} {project : ProjectID}
    {events : List (Event J)} {rows : List WorkedRow} (hrows : RowsOf reader db project events rows)
    (hext : db'.Extends db) : RowsOf reader db' project events rows where
  rows := by
    rw [hrows.rows]
    exact (List.filterMap_congr fun event hevent =>
      (hrows.issues event hevent).workedRow_eq hext).symm
  issues := fun event hevent => (hrows.issues event hevent).mono hext

/-- The storable rows of Events. -/
theorem RowsOf.stored {reader : PayloadReader J} {db : SQLite} {project : ProjectID}
    {events : List (Event J)} {rows : List WorkedRow} (hrows : RowsOf reader db project events rows) :
    (rows.filter fun row => row.row.storable).map (fun row => (row.row, row.issueID)) =
      (events.filterMap (workedRow reader db project)).filter fun worked => worked.1.storable := by
  rw [← hrows.rows, List.filter_map]
  rfl

/-- The rows that can be stored are those of the events. -/
theorem RowsOf.stored_rows {reader : PayloadReader J} {db : SQLite} {project : ProjectID}
    {events : List (Event J)} {rows : List WorkedRow} (hrows : RowsOf reader db project events rows) :
    (rows.filter fun row => row.row.storable).map WorkedRow.row =
      events.flatMap (eventRows reader db project) := by
  have hmap := congrArg (List.map Prod.fst) hrows.stored
  rw [map_storable_filterMap, List.map_map] at hmap
  exact hmap

namespace View

/-- The view as a ledger. -/
def ledger (v : View J) : Ledger.State (Event J) (WithBot UUID) EventRow where
  history := v.history
  cursor := v.pebble.cursor
  recorded := v.pebble.recorded.map (rangeOf v.history)
  tokens := v.table.tokens
  stored := v.table.rows

/-- How far the Issue work is known to be done: to the end of the recorded range, or the cursor. -/
def reach (v : View J) : WithBot UUID :=
  match v.pebble.recorded with
  | some range => range.through
  | none => v.pebble.cursor

/-- What holds of every Project's view. -/
structure Inv (reader : PayloadReader J) (db : SQLite) (project : ProjectID) (v : View J) : Prop where
  /-- Pebble keeps every Event. -/
  events : v.pebble.events.entries.map (fun e => (⟨e.1, e.2⟩ : Event J)) = v.history
  ledger : Ledger.State.Inv Event.key (eventRows reader db project) v.ledger
  /-- The cursor is at an Event, or at the start. -/
  cursor_mem : v.pebble.cursor = ⊥ ∨ ∃ event ∈ v.history, event.key = v.pebble.cursor
  /-- The recorded range is of Events one batch can hold, and ends at one of them. -/
  recorded : ∀ range, v.pebble.recorded = some range →
    v.recording = some (range, (rangeOf v.history range).items) ∧
      (rangeOf v.history range).items.length ≤ batchSize ∧
      ∃ event ∈ v.history, event.id = range.through
  issues : ∀ event ∈ upTo Event.key v.history v.reach, HasIssue reader db project event
  /-- The guard is at most the cursor, or at the end of a recorded range that is stored. -/
  seen : v.seen ≤ v.pebble.cursor ∨ ∃ range, v.pebble.recorded = some range ∧
    v.seen = range.through ∧ (range.after, (range.through : WithBot UUID)) ∈ v.table.tokens
  /-- Between the guard and the cursor nothing is to be counted. -/
  gap : ∀ event ∈ between Event.key v.history v.seen v.pebble.cursor,
    countedOn reader db project event = []

variable {reader : PayloadReader J} {db db' : SQLite} {project : ProjectID} {v : View J}

/-- Nothing is stored of nothing. -/
theorem Inv.new : Inv reader db project ⟨[], PebbleEvents.new, ⟨[], []⟩, none, ⊥⟩ where
  events := rfl
  ledger := Ledger.State.Inv.empty ⊥
  cursor_mem := Or.inl rfl
  recorded := by simp [PebbleEvents.new]
  issues := by simp [upTo]
  seen := Or.inl le_rfl
  gap := by simp [between]

/-- A recorded range starts at the cursor and goes past it. -/
theorem Inv.recorded_after (hinv : Inv reader db project v) {range : EventRange}
    (hrec : v.pebble.recorded = some range) :
    range.after = v.pebble.cursor ∧ v.pebble.cursor < range.through := by
  obtain ⟨hafter, hrange⟩ := hinv.ledger.recorded (rangeOf v.history range) (by
    simp [View.ledger, hrec])
  have hafter' : range.after = v.pebble.cursor := hafter
  exact ⟨hafter', hafter' ▸ hrange.nonempty⟩

/-- The cursor is where the reading has reached, or before it. -/
theorem Inv.cursor_le_reach (hinv : Inv reader db project v) : v.pebble.cursor ≤ v.reach := by
  rw [reach]
  cases hrec : v.pebble.recorded with
  | none => exact le_rfl
  | some range => exact (hinv.recorded_after hrec).2.le

/-- What is stored has its Issue work done. -/
theorem Inv.frontier_le_reach (hinv : Inv reader db project v) : v.ledger.frontier ≤ v.reach := by
  rw [Ledger.State.frontier, reach]
  cases hrec : v.pebble.recorded with
  | none => simp [View.ledger, hrec]
  | some range =>
    simp only [View.ledger, hrec, Option.map_some, rangeOf]
    split
    · exact le_rfl
    · exact (hinv.recorded_after hrec).2.le

/-- What is counted is stored. -/
theorem Inv.seen_le_frontier (hinv : Inv reader db project v) : v.seen ≤ v.ledger.frontier := by
  rcases hinv.seen with hle | ⟨range, hrec, hseen, htoken⟩
  · exact hle.trans hinv.ledger.cursor_le_frontier
  · simp [Ledger.State.frontier, View.ledger, hrec, rangeOf, htoken, hseen]

/-- An id past every Event written is past the cursor and the recorded range. -/
theorem Inv.reach_lt (hinv : Inv reader db project v) {id : UUID}
    (hid : ∀ event ∈ v.history, event.id < id) : v.reach < id := by
  have hkey : ∀ event ∈ v.history, event.key < id := fun event hevent =>
    WithBot.coe_lt_coe.mpr (hid event hevent)
  rw [reach]
  cases hrec : v.pebble.recorded with
  | none =>
    rcases hinv.cursor_mem with hcursor | ⟨event, hevent, hcursor⟩
    · exact hcursor ▸ WithBot.bot_lt_coe id
    · exact hcursor ▸ hkey event hevent
  | some range =>
    obtain ⟨_, _, event, hevent, hthrough⟩ := hinv.recorded range hrec
    exact WithBot.coe_lt_coe.mpr (hthrough ▸ hid event hevent)

/-- A database where every fingerprint leads where it led keeps the view. -/
theorem Inv.mono (hinv : Inv reader db project v) (hext : db'.Extends db) :
    Inv reader db' project v where
  events := hinv.events
  ledger := by
    refine hinv.ledger.congr_rows fun event hevent => ?_
    obtain ⟨hmem, hle⟩ := mem_upTo.mp hevent
    have hissue := hinv.issues event (mem_upTo.mpr ⟨hmem, hle.trans hinv.frontier_le_reach⟩)
    exact (hissue.eventRows_eq hext).symm
  cursor_mem := hinv.cursor_mem
  recorded := hinv.recorded
  issues := fun event hevent => (hinv.issues event hevent).mono hext
  seen := hinv.seen
  gap := by
    intro event hevent
    obtain ⟨hmem, _, hle⟩ := mem_between.mp hevent
    have hissue := hinv.issues event (mem_upTo.mpr ⟨hmem, hle.trans hinv.cursor_le_reach⟩)
    rw [hissue.countedOn_eq hext]
    exact hinv.gap event hevent

/-- The Events after the cursor are those of the history. -/
theorem Inv.eventsAfter_eq (hinv : Inv reader db project v) (after : WithBot UUID) (limit : ℕ) :
    v.pebble.eventsAfter after limit = (past Event.key v.history after).take limit := by
  rw [PebbleEvents.eventsAfter, List.map_take, ← hinv.events, past, List.filter_map, Store.range]
  rfl

/-- A written Event joins the history. -/
def append (v : View J) (event : Event J) : View J :=
  { v with history := v.history ++ [event], pebble := v.pebble.writeEvent event }

/-- A range is recorded, for the Events it holds. -/
def record (v : View J) (range : EventRange) (events : List (Event J)) : View J :=
  { v with pebble := v.pebble.recordEventRange range, recording := some (range, events) }

/-- The guard moves. -/
def count (v : View J) (through : UUID) : View J := { v with seen := through }

/-- Rows of a range are inserted. -/
def insert (v : View J) (range : EventRange) (rows : List EventRow) : View J :=
  { v with table := v.table.insertEvents range.after range.through rows }

/-- The cursor moves past a range. -/
def move (v : View J) (through : UUID) : View J :=
  { v with pebble := v.pebble.setProcessingCursor through }

/-- An Event past the end of a range leaves the range. -/
theorem rangeOf_append {history : List (Event J)} {event : Event J} {range : EventRange}
    (hlt : range.through < event.id) :
    rangeOf (history ++ [event]) range = rangeOf history range := by
  have hkey : (range.through : WithBot UUID) < event.key := WithBot.coe_lt_coe.mpr hlt
  rw [rangeOf, rangeOf, between_append_of_lt hkey]

/-- An event at the end of the history keeps the invariant. -/
theorem Inv.append (hinv : Inv reader db project v) (event : Event J)
    (hevent : ∀ earlier ∈ v.history, earlier.id < event.id) :
    Inv reader db project (v.append event) := by
  have hreach : v.reach < event.key := hinv.reach_lt hevent
  have hcursor : v.pebble.cursor < event.key := hinv.cursor_le_reach.trans_lt hreach
  have hseen : v.seen < event.key :=
    hinv.seen_le_frontier.trans_lt (hinv.frontier_le_reach.trans_lt hreach)
  have hthrough : ∀ range, v.pebble.recorded = some range → range.through < event.id := by
    intro range hrec
    obtain ⟨_, _, last, hlast, hid⟩ := hinv.recorded range hrec
    exact hid ▸ hevent last hlast
  have hledger : (v.append event).ledger = v.ledger.append event := by
    simp only [View.ledger, View.append, Ledger.State.append, PebbleEvents.writeEvent]
    congr 1
    cases hrec : v.pebble.recorded with
    | none => rfl
    | some range => exact congrArg some (rangeOf_append (hthrough range hrec))
  refine ⟨?_, ?_, ?_, ?_, ?_, hinv.seen, ?_⟩
  · have hset : (v.pebble.events.set event.id event.raw).entries =
        v.pebble.events.entries ++ [(event.id, event.raw)] := by
      have hrange := Store.range_set_of_lt v.pebble.events (fun _ => true) event.id event.raw
        (fun e he _ => hevent ⟨e.1, e.2⟩ (hinv.events ▸ List.mem_map_of_mem he)) rfl
      simpa [Store.range] using hrange
    simp only [View.append, PebbleEvents.writeEvent, hset, List.map_append, hinv.events,
      List.map_cons, List.map_nil]
  · rw [hledger]
    refine hinv.ledger.append event (fun earlier hearlier =>
      WithBot.coe_lt_coe.mpr (hevent earlier hearlier)) hcursor fun range hrange => ?_
    obtain ⟨recorded, hrec, rfl⟩ := Option.map_eq_some_iff.mp hrange
    exact WithBot.coe_lt_coe.mpr (hthrough recorded hrec)
  · refine hinv.cursor_mem.imp_right ?_
    rintro ⟨last, hlast, hkey⟩
    exact ⟨last, List.mem_append_left _ hlast, hkey⟩
  · intro range hrec
    obtain ⟨hrecording, hlength, last, hlast, hid⟩ := hinv.recorded range hrec
    have hsame : rangeOf (v.history ++ [event]) range = rangeOf v.history range :=
      rangeOf_append (hthrough range hrec)
    refine ⟨?_, ?_, last, List.mem_append_left _ hlast, hid⟩
    · exact hrecording.trans (by rw [← hsame]; rfl)
    · exact (congrArg (fun r => r.items.length) hsame).trans_le hlength
  · intro other hother
    change other ∈ upTo Event.key (v.history ++ [event]) v.reach at hother
    rw [upTo_append_of_lt hreach] at hother
    exact hinv.issues other hother
  · intro other hother
    change other ∈ between Event.key (v.history ++ [event]) v.seen v.pebble.cursor at hother
    rw [between_append_of_lt hcursor] at hother
    exact hinv.gap other hother

/-- Recording the range to read keeps the invariant. -/
theorem Inv.record (hinv : Inv reader db project v) (hnone : v.pebble.recorded = none)
    (range : EventRange) (hafter : range.after = v.pebble.cursor)
    (hlt : range.after < range.through)
    (hlength : (rangeOf v.history range).items.length ≤ batchSize)
    (hmem : ∃ event ∈ v.history, event.id = range.through)
    (hissues : ∀ event ∈ (rangeOf v.history range).items, HasIssue reader db project event) :
    Inv reader db project (v.record range (rangeOf v.history range).items) := by
  have hincreasing : Increasing Event.key v.history := hinv.ledger.increasing
  have hledgernone : v.ledger.recorded = none := by simp [View.ledger, hnone]
  refine ⟨hinv.events, ?_, hinv.cursor_mem, ?_, ?_, ?_, hinv.gap⟩
  · exact hinv.ledger.record hledgernone (rangeOf v.history range) hafter ⟨hlt, rfl⟩
  · intro other hother
    obtain rfl := Option.some.inj hother
    exact ⟨rfl, hlength, hmem⟩
  · intro event hevent
    change event ∈ upTo Event.key v.history range.through at hevent
    rw [← upTo_append_between hincreasing hlt.le] at hevent
    rcases List.mem_append.mp hevent with hevent | hevent
    · refine hinv.issues event ?_
      rw [reach, hnone, ← hafter]
      exact hevent
    · exact hissues event hevent
  · refine Or.inl (hinv.seen.resolve_right ?_)
    rintro ⟨other, hother, _⟩
    simp [hnone] at hother

/-- Inserting the rows of a range stores it in the ledger. -/
theorem ledger_insert (range : EventRange) (rows : List EventRow)
    (hrows : rows = (rangeOf v.history range).items.flatMap (eventRows reader db project)) :
    (v.insert range rows).ledger =
      v.ledger.insert (eventRows reader db project) (rangeOf v.history range) := by
  subst hrows
  by_cases hdrop : (rangeOf v.history range).items.flatMap (eventRows reader db project) = [] ∨
      (range.after, (range.through : WithBot UUID)) ∈ v.table.tokens
  · refine Eq.trans ?_ (if_pos hdrop).symm
    rw [View.insert, EventsTable.insertEvents, if_pos hdrop]
  · refine Eq.trans ?_ (if_neg hdrop).symm
    rw [View.insert, EventsTable.insertEvents, if_neg hdrop]
    rfl

/-- Inserting the rows of the recorded range keeps the invariant. -/
theorem Inv.insert (hinv : Inv reader db project v) {range : EventRange}
    (hrec : v.pebble.recorded = some range) (rows : List EventRow)
    (hrows : rows = (rangeOf v.history range).items.flatMap (eventRows reader db project)) :
    Inv reader db project (v.insert range rows) := by
  refine ⟨hinv.events, ?_, hinv.cursor_mem, hinv.recorded, hinv.issues, ?_, hinv.gap⟩
  · rw [ledger_insert range rows hrows]
    exact hinv.ledger.insert _ (by simp [View.ledger, hrec])
  · refine hinv.seen.imp_right ?_
    rintro ⟨other, hother, hseen, htoken⟩
    refine ⟨other, hother, hseen, ?_⟩
    rw [View.insert, EventsTable.insertEvents]
    dsimp only
    split
    · exact htoken
    · exact List.mem_cons_of_mem _ htoken

/-- Counting the recorded range once it is stored. -/
theorem Inv.count (hinv : Inv reader db project v) {range : EventRange}
    (hrec : v.pebble.recorded = some range)
    (htoken : (range.after, (range.through : WithBot UUID)) ∈ v.table.tokens) :
    Inv reader db project (v.count range.through) where
  events := hinv.events
  ledger := hinv.ledger
  cursor_mem := hinv.cursor_mem
  recorded := hinv.recorded
  issues := hinv.issues
  seen := Or.inr ⟨range, hrec, rfl, htoken⟩
  gap := by
    intro event hevent
    obtain ⟨_, hlt, hle⟩ := mem_between.mp hevent
    exact absurd (hlt.trans_le hle) (hinv.recorded_after hrec).2.not_gt

/-- Moving the cursor past the recorded range, once stored, keeps the invariant. -/
theorem Inv.move (hinv : Inv reader db project v) {range : EventRange}
    (hrec : v.pebble.recorded = some range)
    (hstored : v.ledger.Stored (eventRows reader db project) (rangeOf v.history range))
    (hcounted : (∀ event ∈ (rangeOf v.history range).items,
      countedOn reader db project event = []) ∨ v.seen = range.through) :
    Inv reader db project (v.move range.through) := by
  obtain ⟨hafter, hlt⟩ := hinv.recorded_after hrec
  obtain ⟨_, _, hmem⟩ := hinv.recorded range hrec
  obtain ⟨last, hlast, hid⟩ := hmem
  refine ⟨hinv.events, ?_, ?_, by simp [View.move, PebbleEvents.setProcessingCursor], ?_, ?_, ?_⟩
  · exact hinv.ledger.move (rangeOf v.history range) (by simp [View.ledger, hrec]) hstored
  · exact Or.inr ⟨last, hlast, congrArg _ hid⟩
  · intro event hevent
    refine hinv.issues event ?_
    rw [reach, hrec]
    exact hevent
  · refine Or.inl ?_
    rcases hinv.seen with hle | ⟨other, hother, hseen, _⟩
    · exact hle.trans hlt.le
    · obtain rfl := Option.some.inj (hrec.symm.trans hother)
      exact hseen.le
  · intro event hevent
    obtain ⟨hin, hseen, hle⟩ := mem_between.mp hevent
    have hle' : event.key ≤ range.through := hle
    rcases hcounted with hnone | hcounted
    · by_cases hold : event.key ≤ v.pebble.cursor
      · exact hinv.gap event (mem_between.mpr ⟨hin, hseen, hold⟩)
      · exact hnone event (mem_between.mpr ⟨hin, hafter ▸ not_le.mp hold, hle'⟩)
    · exact absurd (hcounted ▸ hseen) hle'.not_gt

end View

end SolidTrace.EventProcessing
