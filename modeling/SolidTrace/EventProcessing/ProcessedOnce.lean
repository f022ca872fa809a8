import SolidTrace.EventProcessing.ExactlyOnce

/-!
# What Event processing guarantees

Over every run in which no process starts below the ids of the one before, each Event behind the
cursor is stored and counted exactly once, and each Event is written ahead of the cursor. A clock
that steps back across a restart breaks both: the Event is written behind the cursor and never
read.
-/

namespace SolidTrace.EventProcessing

open Storage SortedHistory Transition

variable {J : Type*}

/-- An Event's payload can be read, and its row stored. -/
def processable (reader : PayloadReader J) (event : Event J) : Bool :=
  (reader.details event.raw).isSome &&
    (earliestEventTime ≤ reader.timestamp event.raw event.id &&
      reader.timestamp event.raw event.id < latestEventTime)

/-- The Issue that an Event's fingerprint leads to. -/
def issueOf (reader : PayloadReader J) (db : SQLite) (project : ProjectID) (event : Event J) :
    Option ℕ :=
  (reader.details event.raw).bind fun details =>
    (db.findIssueByFingerprint project details.fingerprint).map FoundIssue.issueID

/-- How many rows of a Project name an Event. -/
def System.rowsOf (s : System J) (project : ProjectID) (id : UUID) : ℕ :=
  ((s.table project).rows.filter fun row => row.uuid = id).length

/-- An Event is behind the cursor, or behind the guard of what is counted. -/
def System.behind (s : System J) (project : ProjectID) (event : Event J) : Bool :=
  event.key ≤ (s.pebble project).cursor || event.key ≤ s.sqlite.seen project

/-- Event processing is exactly once. -/
structure ProcessedOnce (reader : PayloadReader J) (s : System J) : Prop where
  /-- Each Event behind the cursor that can be processed has one row, and an Issue. -/
  stored : ∀ project, ∀ event ∈ s.historyOf project, event.key ≤ (s.pebble project).cursor →
    processable reader event → s.rowsOf project event.id = 1 ∧
      ∃ issue ∈ s.sqlite.issues, issue.project = project ∧
        issueOf reader s.sqlite project event = some issue.id
  /-- No Event has two. -/
  once : ∀ project id, s.rowsOf project id ≤ 1
  /-- Each Issue was seen as often as it has such Events behind the cursor, or counted already. -/
  counted : ∀ issue ∈ s.sqlite.issues, issue.timesSeen =
    ((s.historyOf issue.project).filter fun event => processable reader event &&
      decide (issueOf reader s.sqlite issue.project event = some issue.id) &&
      s.behind issue.project event).length
  /-- No Event is counted without its row. -/
  countedStored : ∀ project, ∀ event ∈ s.historyOf project, s.behind project event →
    processable reader event → s.rowsOf project event.id = 1
  /-- A recorded range is read again with the Events it was recorded for. -/
  again : ∀ project range, (s.pebble project).recorded = some range →
    ∃ events, s.recording project = some (range, events) ∧
      readBatch (s.pebble project) project = (⟨project, range.after, some range.through⟩, events)

section Rows

variable {reader : PayloadReader J} {db : SQLite} {project : ProjectID} {event : Event J}

/-- An event is counted on its issue when it can be processed. -/
theorem countedOn_eq : countedOn reader db project event =
    if processable reader event then (issueOf reader db project event).toList else [] := by
  rw [countedOn, workedRow, issueOf, processable]
  cases hdetails : reader.details event.raw with
  | none => rfl
  | some details =>
    cases hfound : db.findIssueByFingerprint project details.fingerprint with
    | none => simp [hfound]
    | some found =>
      simp only [hfound, Option.bind_eq_bind, Option.bind_some, Option.map_some, Option.toList_some,
        Option.isSome_some, Bool.true_and, EventRow.storable, List.filter_cons, List.filter_nil]
      split <;> rfl

/-- An event has as many rows as issues it is counted on. -/
theorem length_eventRows :
    (eventRows reader db project event).length = (countedOn reader db project event).length := by
  rw [eventRows, countedOn, List.length_map, List.length_map]

/-- An event has one row at most. -/
theorem length_eventRows_le : (eventRows reader db project event).length ≤ 1 := by
  rw [length_eventRows, countedOn_eq]
  split
  · exact Option.length_toList_le
  · exact Nat.zero_le 1

/-- An Event that can be processed and has its Issue has one row. -/
theorem HasIssue.oneRow (hissue : HasIssue reader db project event)
    (hprocessable : processable reader event) :
    (eventRows reader db project event).length = 1 ∧
      ∃ id, issueOf reader db project event = some id := by
  have hreadable : (reader.details event.raw).isSome := by
    rw [processable, Bool.and_eq_true] at hprocessable
    exact hprocessable.1
  obtain ⟨details, hdetails⟩ := Option.isSome_iff_exists.mp hreadable
  obtain ⟨found, hfound⟩ := Option.isSome_iff_exists.mp (hissue details hdetails)
  have hof : issueOf reader db project event = some found.issueID := by
    simp [issueOf, hdetails, hfound]
  refine ⟨?_, found.issueID, hof⟩
  rw [length_eventRows, EventProcessing.countedOn_eq, if_pos hprocessable, hof]
  rfl

/-- The Issues that Events count on, one Event at a time. -/
theorem count_flatMap_countedOn (events : List (Event J)) (id : ℕ) :
    (events.flatMap (countedOn reader db project)).count id =
      (events.filter fun event => processable reader event &&
        decide (issueOf reader db project event = some id)).length := by
  induction events with
  | nil => rfl
  | cons event rest ih =>
    rw [List.flatMap_cons, List.count_append, ih, countedOn_eq, List.filter_cons]
    cases hprocessable : processable reader event with
    | false => simp
    | true =>
      cases hof : issueOf reader db project event with
      | none => simp
      | some other =>
        by_cases hid : other = id
        · simp [hid, Nat.add_comm]
        · simp [hid]

end Rows

section Guarantees

variable {reader : PayloadReader J} {s : System J}

/-- The rows of an Event are its own. -/
theorem EventInv.rowsOf_eq (hinv : EventInv reader s) (project : ProjectID) {event : Event J}
    (hevent : event ∈ upTo Event.key (s.historyOf project) (s.view project).ledger.frontier) :
    s.rowsOf project event.id = (eventRows reader s.sqlite project event).length := by
  have hledger := (hinv.view project).ledger
  have hincreasing : Increasing Event.key (upTo Event.key (s.historyOf project)
      (s.view project).ledger.frontier) := List.Pairwise.filter _ hledger.increasing
  have hrows := Ledger.filter_flatMap_owner Event.key (eventRows reader s.sqlite project)
    (fun event row hrow => congrArg WithBot.some (uuid_of_mem_eventRows hrow)) hincreasing event
    hevent
  have hstored : (s.table project).rows = (upTo Event.key (s.historyOf project)
      (s.view project).ledger.frontier).flatMap (eventRows reader s.sqlite project) :=
    hledger.stored
  rw [System.rowsOf, hstored]
  refine (congrArg List.length ?_).trans (congrArg List.length hrows)
  exact List.filter_congr fun row _ => decide_eq_decide.mpr WithBot.coe_inj.symm

/-- A written event has one row at most in every state. -/
theorem EventInv.rowsOf_le (hinv : EventInv reader s) (project : ProjectID) (id : UUID) :
    s.rowsOf project id ≤ 1 := by
  by_cases hmem : ∃ event ∈ upTo Event.key (s.historyOf project)
      (s.view project).ledger.frontier, event.id = id
  · obtain ⟨event, hevent, rfl⟩ := hmem
    rw [hinv.rowsOf_eq project hevent]
    exact length_eventRows_le
  · have hstored : (s.table project).rows = (upTo Event.key (s.historyOf project)
        (s.view project).ledger.frontier).flatMap (eventRows reader s.sqlite project) :=
      (hinv.view project).ledger.stored
    have hnone : (s.table project).rows.filter (fun row => row.uuid = id) = [] := by
      refine List.filter_eq_nil_iff.mpr fun row hrow => ?_
      rw [hstored] at hrow
      obtain ⟨event, hevent, hof⟩ := List.mem_flatMap.mp hrow
      have hne : row.uuid ≠ id := fun hid =>
        hmem ⟨event, hevent, (uuid_of_mem_eventRows hof).symm.trans hid⟩
      simpa using hne
    rw [System.rowsOf, hnone]
    exact Nat.zero_le 1

/-- What is behind is stored, and has its Issue work done. -/
theorem EventInv.oneRow (hinv : EventInv reader s) (project : ProjectID) {event : Event J}
    (hevent : event ∈ s.historyOf project) (hbehind : s.behind project event)
    (hprocessable : processable reader event) :
    s.rowsOf project event.id = 1 ∧ ∃ id, issueOf reader s.sqlite project event = some id := by
  have hviewInv := hinv.view project
  have hle : event.key ≤ (s.view project).ledger.frontier := by
    simp only [System.behind, Bool.or_eq_true, decide_eq_true_eq] at hbehind
    rcases hbehind with hcursor | hseen
    · exact hcursor.trans hviewInv.ledger.cursor_le_frontier
    · exact hseen.trans hviewInv.seen_le_frontier
  have hissue := hviewInv.issues event
    (mem_upTo.mpr ⟨hevent, hle.trans hviewInv.frontier_le_reach⟩)
  rw [hinv.rowsOf_eq project (mem_upTo.mpr ⟨hevent, hle⟩)]
  exact hissue.oneRow hprocessable

/-- The invariant gives that events are processed once. -/
theorem EventInv.processedOnce (hinv : EventInv reader s) : ProcessedOnce reader s where
  stored := by
    intro project event hevent hcursor hprocessable
    have hbehind : s.behind project event = true := by simp [System.behind, hcursor]
    obtain ⟨hrow, id, hof⟩ := hinv.oneRow project hevent hbehind hprocessable
    have hmem : id ∈ countedOn reader s.sqlite project event := by
      rw [countedOn_eq, if_pos hprocessable, hof]
      simp
    obtain ⟨issue, hissue, rfl, hproject⟩ := hinv.db.exists_issue_of_mem_countedOn hmem
    exact ⟨hrow, issue, hissue, hproject, hof⟩
  once := hinv.rowsOf_le
  counted := by
    intro issue hissue
    rw [hinv.counts issue hissue, count_flatMap_countedOn, upTo, List.filter_filter]
    refine congrArg List.length (List.filter_congr fun event hevent => ?_)
    by_cases hseen : event.key ≤ s.sqlite.seen issue.project
    · simp [System.behind, hseen]
    · by_cases hcursor : event.key ≤ (s.pebble issue.project).cursor
      · -- between the guard and the cursor, nothing is to be counted
        have hgap := (hinv.view issue.project).gap event
          (mem_between.mpr ⟨hevent, not_le.mp hseen, hcursor⟩)
        rw [countedOn_eq] at hgap
        cases hprocessable : processable reader event with
        | false => simp
        | true =>
          rw [hprocessable, if_pos rfl, Option.toList_eq_nil_iff] at hgap
          simp [hgap]
      · simp [System.behind, hseen, hcursor]
  countedStored := fun project event hevent hbehind hprocessable =>
    (hinv.oneRow project hevent hbehind hprocessable).1
  again := by
    intro project range hrec
    have hviewInv := hinv.view project
    exact ⟨_, (hviewInv.recorded range hrec).1, hviewInv.readBatch_of_recorded hrec⟩

/-- The steps in which ids increase within each process, and no process starts below the one
before. -/
def System.clockKept (s : System J) (a : Action J) : Prop := s.idsIncrease a ∧ s.startsAbove a

/-- An Event written now is past its Project's cursor, so reading on from there returns it. -/
structure WrittenAhead (s : System J) (project : ProjectID) (event : Event J) : Prop where
  cursor_lt : (s.pebble project).cursor < event.key
  read : ∀ limit, (s.historyOf project).length < limit →
    event ∈ ((s.writeEvent project event.raw event.id).pebble project).eventsAfter
      (s.pebble project).cursor limit

/-- In every run of such steps, every write that is not refused is ahead of the cursor. -/
def NeverBehind (reader : PayloadReader J) (allowed : System J → Action J → Prop) : Prop :=
  ∀ s, Reaches (System.step reader) allowed System.init s → ∀ project raw newV7,
    allowed s (.writeEvent project raw newV7) → s.refusing = false →
      WrittenAhead s project ⟨newV7, raw⟩

/-- The invariant gives that a new event is ahead of the cursor, where the clock did not step
back. -/
theorem EventInv.writtenAhead (hinv : EventInv reader s) {project : ProjectID} {raw : J}
    {newV7 : UUID} (hkept : s.clockKept (.writeEvent project raw newV7))
    (hrefusing : s.refusing = false) : WrittenAhead s project ⟨newV7, raw⟩ := by
  have hlt := hinv.lt_newV7 hkept.1 hkept.2
  have hviewInv := hinv.view project
  have hcursor : (s.pebble project).cursor < (⟨newV7, raw⟩ : Event J).key :=
    hviewInv.cursor_le_reach.trans_lt (hviewInv.reach_lt hlt)
  refine ⟨hcursor, fun limit hlimit => ?_⟩
  have hview : (s.writeEvent project raw newV7).view project =
      (s.view project).append ⟨newV7, raw⟩ :=
    (System.view_writeEvent project raw newV7 hrefusing project).trans (if_pos rfl)
  have hpebble : (s.writeEvent project raw newV7).pebble project =
      ((s.view project).append ⟨newV7, raw⟩).pebble := congrArg View.pebble hview
  rw [hpebble, (hviewInv.append ⟨newV7, raw⟩ hlt).eventsAfter_eq]
  have hpast : past Event.key ((s.view project).append ⟨newV7, raw⟩).history
      (s.pebble project).cursor =
      past Event.key (s.historyOf project) (s.pebble project).cursor ++ [⟨newV7, raw⟩] :=
    past_append_of_lt hcursor
  have hlength : (past Event.key (s.historyOf project) (s.pebble project).cursor).length ≤
      (s.historyOf project).length := List.length_filter_le _ _
  rw [hpast, List.take_of_length_le (by rw [List.length_append, List.length_singleton]; omega)]
  exact List.mem_append_right _ (List.mem_singleton_self _)

/-- Every run that meets the condition keeps the invariant. -/
theorem EventInv.of_reaches
    (hrun : Reaches (System.step reader) System.clockKept System.init s) : EventInv reader s :=
  hrun.invariant EventInv.init fun _ _ _ hinv hkept hstep => hinv.step hkept.1 hkept.2 hstep

/-- Over every run in which no process gives a Project an id below those of the one before, Event
processing is exactly once. -/
theorem events_processedOnce
    (hrun : Reaches (System.step reader) System.clockKept System.init s) :
    ProcessedOnce reader s := (EventInv.of_reaches hrun).processedOnce

/-- While no process starts below the one before, no Event is written behind the cursor. -/
theorem events_neverBehind (reader : PayloadReader J) : NeverBehind reader System.clockKept :=
  fun _ hrun _ _ _ hkept hrefusing => (EventInv.of_reaches hrun).writtenAhead hkept hrefusing

end Guarantees

section Runs

instance (s : System J) (a : Action J) : Decidable (s.idsIncrease a) :=
  match a with
  | .writeEvent _ _ newV7 =>
    inferInstanceAs (Decidable (∀ w ∈ s.written, w.process = s.process → w.event.id < newV7))
  | .stopWrites | .resolveIssue _ | .read _ | .issueWork _ | .record _ | .insert _ | .count _
  | .enqueue _ | .moveCursor _ | .stop | .giveUp | .restart => isTrue trivial

instance (s : System J) (a : Action J) : Decidable (s.startsAbove a) :=
  match a with
  | .writeEvent project _ newV7 =>
    inferInstanceAs (Decidable ((∀ w ∈ s.written, w.process = s.process → w.project ≠ project) →
      ∀ w ∈ s.written, w.project = project → w.event.id < newV7))
  | .stopWrites | .resolveIssue _ | .read _ | .issueWork _ | .record _ | .insert _ | .count _
  | .enqueue _ | .moveCursor _ | .stop | .giveUp | .restart => isTrue trivial

instance (s : System J) (a : Action J) : Decidable (s.clockKept a) :=
  inferInstanceAs (Decidable (_ ∧ _))

/-- Payloads that are numbers: zero can't be read, and the others are errors of two Issues. -/
def numbers : PayloadReader ℕ where
  details raw := if raw = 0 then none
    else some ⟨"error", "", .error, if raw % 2 = 0 then "even" else "odd"⟩
  timestamp _ _ := 0
  fields _ := ⟨[], "", "", "", "", ""⟩

/-- The id of an Event received at a time, in milliseconds. -/
def idAt (time : ℤ) : UUID := newLogBatchID UUID.Nil (time * 10 ^ 6)

/-- Three Events, one unreadable, whose batch is inserted but not counted when the process crashes.
Another Event comes before the range is processed again, and a stop cuts the next batch short. -/
def crashAfterInsert : List (Action ℕ) :=
  [.writeEvent 7 1 (idAt 1000), .writeEvent 7 0 (idAt 1001), .writeEvent 7 2 (idAt 1002), .read 7,
    .issueWork .failedAfter, .issueWork .done, .issueWork .done, .issueWork .done, .issueWork .done,
    .issueWork .done, .issueWork .done, .record .failedAfter, .record .done, .insert .failedAfter,
    .restart, .writeEvent 7 3 (idAt 1003), .writeEvent 7 4 (idAt 1004), .read 7, .issueWork .done,
    .issueWork .done, .issueWork .done, .issueWork .done, .issueWork .done, .issueWork .done,
    .record .done, .insert .done, .count .failedAfter, .count .done, .enqueue none,
    .moveCursor .done, .read 7, .issueWork .done, .stop, .issueWork .done, .record .done,
    .insert .done, .count .done, .enqueue (some 0), .enqueue none, .moveCursor .done]

/-- The run that crashes after the insert is one. -/
private theorem crashAfterInsert_runs : (Transition.run (System.step numbers) System.clockKept
    System.init crashAfterInsert).isSome = true := by
  decide

/-- The Events behind the cursor are stored and counted once: the odd Issue was seen twice, the even
one once, and one Event is left. -/
theorem events_processedOnce_crashAfterInsert : ∃ s : System ℕ,
    Transition.run (System.step numbers) System.clockKept System.init crashAfterInsert = some s ∧
      s.sqlite.issues.map Issue.timesSeen = [2, 1] ∧ (s.table 7).rows.length = 3 ∧
      ProcessedOnce numbers s := by
  have hrun := (Option.some_get crashAfterInsert_runs).symm
  exact ⟨_, hrun, by decide, by decide, events_processedOnce (reaches_of_run hrun)⟩

/-- The next Event of that run is ahead of the cursor. -/
theorem events_neverBehind_crashAfterInsert : ∃ s : System ℕ,
    Transition.run (System.step numbers) System.clockKept System.init crashAfterInsert = some s ∧
      WrittenAhead s 7 ⟨idAt 1005, 5⟩ := by
  have hrun := (Option.some_get crashAfterInsert_runs).symm
  exact ⟨_, hrun, events_neverBehind numbers _ (reaches_of_run hrun) 7 5 (idAt 1005)
    (by decide) (by decide)⟩

/-- An Event processed, a restart, and an Event written while the clock reads an earlier time. -/
def clockBack : List (Action ℕ) :=
  [.writeEvent 7 1 (idAt 1000), .read 7, .issueWork .done, .record .done, .insert .done,
    .count .done, .enqueue none, .moveCursor .done, .restart, .writeEvent 7 3 (idAt 999)]

/-- The run whose clock steps back is one. -/
private theorem clockBack_runs : (Transition.run (System.step numbers) System.idsIncrease
    System.init clockBack).isSome = true := by
  decide

/-- Ids that increase within each process are not enough: the second Event is behind the cursor and
has no row. -/
theorem not_forall_processedOnce : ¬ ∀ s : System ℕ,
    Reaches (System.step numbers) System.idsIncrease System.init s → ProcessedOnce numbers s := by
  intro hall
  have hrun := (Option.some_get clockBack_runs).symm
  have honce := hall _ (reaches_of_run hrun)
  have hrow := (honce.stored 7 ⟨idAt 999, 3⟩ (by decide) (by decide)
    (by decide)).1
  exact absurd hrow (by decide)

/-- That run is one up to its last step. -/
private theorem clockBack_init_runs : (Transition.run (System.step numbers) System.idsIncrease
    System.init clockBack.dropLast).isSome = true := by
  decide

/-- The second Event's id sorts before the cursor the first one left. -/
theorem not_neverBehind : ¬ NeverBehind numbers System.idsIncrease := by
  intro hall
  have hrun := (Option.some_get clockBack_init_runs).symm
  have hahead := hall _ (reaches_of_run hrun) 7 3 (idAt 999) (by decide) (by decide)
  exact absurd hahead.cursor_lt (by decide)

end Runs

end SolidTrace.EventProcessing
