import SolidTrace.EventProcessing.ProjectEvents

/-!
# Event processing stores and counts every Event exactly once

Every step of the machine leaves each Project's view as it is, or does to one Project's view what
the view's own operations do, and every change to the Issues extends them. So the invariant holds
over every run in which ids increase within each Project. `uuid.NewV7` promises that within one
process only: nothing keeps a new process's ids above those of the one before.
-/

namespace SolidTrace.EventProcessing

open Storage SortedStore SortedHistory Transition
open LogProcessing (Outcome)

variable {J : Type*}

/-- The Events of an attempt: the first past the cursor, or those of the recorded range. -/
structure Attempt.Reads (v : View J) (attempt : Attempt) (events : List (Event J)) : Prop where
  after : attempt.after = v.pebble.cursor
  fresh : attempt.again = none → v.pebble.recorded = none ∧
    events <+: past Event.key v.history v.pebble.cursor ∧ events.length ≤ batchSize
  again : ∀ through, attempt.again = some through →
    v.pebble.recorded = some ⟨attempt.after, through⟩ ∧
      events = between Event.key v.history attempt.after through

/-- A batch that is about to be recorded, or was. -/
structure EventBatch.Ready (reader : PayloadReader J) (db : SQLite) (v : View J)
    (batch : EventBatch J) : Prop where
  after : batch.after = v.pebble.cursor
  events : batch.events = between Event.key v.history batch.after batch.through
  rows : RowsOf reader db batch.project batch.events batch.rows
  length : batch.events.length ≤ batchSize
  last : ∃ event ∈ v.history, event.id = batch.through
  nonempty : batch.after < batch.through

/-- A batch's range. -/
def EventBatch.range (batch : EventBatch J) : EventRange := ⟨batch.after, batch.through⟩

/-- A batch that is recorded, stored and counted. -/
structure EventBatch.Counted (reader : PayloadReader J) (db : SQLite) (v : View J)
    (batch : EventBatch J) : Prop where
  ready : batch.Ready reader db v
  recorded : v.pebble.recorded = some batch.range
  stored : v.ledger.Stored (eventRows reader db batch.project) (rangeOf v.history batch.range)
  counted : batch.stored = [] ∨ v.seen = batch.through

/-- What holds of the worker in each phase. A write that failed may have been made: the range
recorded, or the cursor moved. -/
def Phase.Inv (reader : PayloadReader J) (db : SQLite) (view : ProjectID → View J) :
    Phase J → Prop
  | .idle => True
  | .working attempt done rows event rest _ =>
    attempt.Reads (view attempt.project) (done ++ event :: rest) ∧
      RowsOf reader db attempt.project done rows
  | .worked batch again _ => batch.Ready reader db (view batch.project) ∧
      ((view batch.project).pebble.recorded = some batch.range ∨
        again = false ∧ (view batch.project).pebble.recorded = none)
  | .recorded batch _ => batch.Ready reader db (view batch.project) ∧
      (view batch.project).pebble.recorded = some batch.range
  | .inserted batch _ => batch.Ready reader db (view batch.project) ∧
      (view batch.project).pebble.recorded = some batch.range ∧
      (view batch.project).ledger.Stored (eventRows reader db batch.project)
        (rangeOf (view batch.project).history batch.range)
  | .counted batch _ => batch.Counted reader db (view batch.project)
  | .enqueued batch _ => batch.Counted reader db (view batch.project) ∨
      (view batch.project).pebble.recorded = none ∧
        (view batch.project).pebble.cursor = batch.through

section Reading

variable {reader : PayloadReader J} {db db' : SQLite} {v : View J} {project : ProjectID}

/-- A range that one batch could hold is read again whole, whatever was written past it. -/
theorem View.Inv.readBatch_of_recorded (hinv : v.Inv reader db project) {range : EventRange}
    (hrec : v.pebble.recorded = some range) :
    readBatch v.pebble project =
      (⟨project, range.after, some range.through⟩, (rangeOf v.history range).items) := by
  obtain ⟨hafter, hlt⟩ := hinv.recorded_after hrec
  obtain ⟨_, hlength, _⟩ := hinv.recorded range hrec
  have hincreasing : Increasing Event.key v.history := hinv.ledger.increasing
  have hcut : past Event.key v.history v.pebble.cursor =
      (rangeOf v.history range).items ++ past Event.key v.history range.through := by
    rw [rangeOf, hafter, between_append_past hincreasing hlt.le]
  have htake : (past Event.key v.history v.pebble.cursor).take batchSize =
      (rangeOf v.history range).items ++ (past Event.key v.history range.through).take
        (batchSize - (rangeOf v.history range).items.length) := by
    rw [hcut, List.take_append, List.take_of_length_le hlength]
  have hfront : (rangeOf v.history range).items.filter (fun e => e.id ≤ range.through) =
      (rangeOf v.history range).items := by
    refine List.filter_eq_self.mpr fun event hevent => decide_eq_true ?_
    exact WithBot.coe_le_coe.mp (mem_between.mp hevent).2.2
  have hrest : ∀ n, ((past Event.key v.history range.through).take n).filter
      (fun e => e.id ≤ range.through) = [] := by
    intro n
    refine List.filter_eq_nil_iff.mpr fun event hevent => ?_
    have hpast := (mem_past.mp (List.mem_of_mem_take hevent)).2
    simpa using WithBot.coe_lt_coe.mp hpast
  rw [readBatch, hrec]
  simp only [hafter, if_true, hinv.eventsAfter_eq, htake, List.filter_append, hfront, hrest,
    List.append_nil]

/-- What is read is what an attempt may hold. -/
theorem View.Inv.readBatch_reads (hinv : v.Inv reader db project) :
    (readBatch v.pebble project).1.Reads v (readBatch v.pebble project).2 ∧
      (readBatch v.pebble project).1.project = project := by
  cases hrec : v.pebble.recorded with
  | none =>
    have hread : readBatch v.pebble project = (⟨project, v.pebble.cursor, none⟩,
        (past Event.key v.history v.pebble.cursor).take batchSize) := by
      rw [readBatch, hrec, hinv.eventsAfter_eq]
    rw [hread]
    refine ⟨⟨rfl, fun _ => ⟨hrec, List.take_prefix _ _, List.length_take_le _ _⟩, ?_⟩, rfl⟩
    simp
  | some range =>
    rw [hinv.readBatch_of_recorded hrec]
    obtain ⟨hafter, hlt⟩ := hinv.recorded_after hrec
    refine ⟨⟨hafter, by simp, ?_⟩, rfl⟩
    intro through hthrough
    obtain rfl := Option.some.inj hthrough
    exact ⟨hrec, rfl⟩

/-- A fresh attempt may end with the Events that are done. -/
theorem Attempt.Reads.cut {attempt : Attempt} {done rest : List (Event J)}
    (hreads : attempt.Reads v (done ++ rest)) (hfresh : attempt.again = none) :
    attempt.Reads v done := by
  obtain ⟨hrec, hfront, hlength⟩ := hreads.fresh hfresh
  refine ⟨hreads.after, fun _ => ⟨hrec, (List.prefix_append _ _).trans hfront, ?_⟩, ?_⟩
  · exact (List.length_append ▸ Nat.le_add_right _ _).trans hlength
  · simp [hfresh]

/-- The batch that Issue work ends with. -/
theorem Attempt.Reads.finish {attempt : Attempt} {view : ProjectID → View J}
    (hinv : (view attempt.project).Inv reader db attempt.project) {done : List (Event J)}
    {rows : List WorkedRow} (hreads : attempt.Reads (view attempt.project) done)
    (hrows : RowsOf reader db attempt.project done rows) :
    (finish attempt done rows).Inv reader db view := by
  rw [EventProcessing.finish]
  cases hlast : done.getLast? with
  | none => trivial
  | some last =>
    cases hagain : attempt.again with
    | none =>
      obtain ⟨hrec, hfront, hlength⟩ := hreads.fresh hagain
      have hmem := mem_past.mp (hfront.subset (List.mem_of_getLast? hlast))
      refine ⟨⟨hreads.after, ?_, hrows, hlength, ⟨last, hmem.1, rfl⟩, ?_⟩, Or.inr ⟨rfl, hrec⟩⟩
      · dsimp only [Option.getD_none]
        rw [hreads.after]
        exact eq_between_of_prefix hinv.ledger.increasing hfront hlast
      · exact hreads.after ▸ hmem.2
    | some through =>
      obtain ⟨hrec, hevents⟩ := hreads.again through hagain
      obtain ⟨_, hlength, hmem⟩ := hinv.recorded _ hrec
      obtain ⟨hafter, hlt⟩ := hinv.recorded_after hrec
      refine ⟨⟨hreads.after, hevents, hrows, ?_, hmem, hafter.trans_lt hlt⟩, Or.inl hrec⟩
      exact (congrArg List.length hevents).trans_le hlength

/-- Going on to the next Event. -/
theorem Attempt.Reads.advance {attempt : Attempt} {view : ProjectID → View J}
    (hinv : (view attempt.project).Inv reader db attempt.project) {done rest : List (Event J)}
    {rows : List WorkedRow} (hreads : attempt.Reads (view attempt.project) (done ++ rest))
    (hrows : RowsOf reader db attempt.project done rows) :
    (advance attempt done rows rest).Inv reader db view := by
  cases rest with
  | nil =>
    rw [List.append_nil] at hreads
    exact hreads.finish hinv hrows
  | cons event rest => exact ⟨hreads, hrows⟩

end Reading

section Framing

variable {reader : PayloadReader J} {db db' : SQLite} {v : View J}

/-- A batch that is ready to insert stays so as the database is extended. -/
theorem EventBatch.Ready.mono {batch : EventBatch J} (hready : batch.Ready reader db v)
    (hext : db'.Extends db) : batch.Ready reader db' v :=
  { hready with rows := hready.rows.mono hext }

/-- Once a batch's Issue work is done, whether its rows are stored does not depend on later Issue
work. -/
theorem EventBatch.Ready.stored_mono {batch : EventBatch J} (hready : batch.Ready reader db v)
    (hext : db'.Extends db)
    (hstored : v.ledger.Stored (eventRows reader db batch.project) (rangeOf v.history batch.range)) :
    v.ledger.Stored (eventRows reader db' batch.project) (rangeOf v.history batch.range) := by
  refine hstored.imp_right fun hnone => ?_
  rw [← hnone]
  refine List.flatMap_congr fun event hevent => ?_
  exact (hready.rows.issues event (hready.events ▸ hevent)).eventRows_eq hext

/-- A batch that was counted stays so as the database is extended. -/
theorem EventBatch.Counted.mono {batch : EventBatch J} (hcounted : batch.Counted reader db v)
    (hext : db'.Extends db) : batch.Counted reader db' v :=
  { hcounted with
    ready := hcounted.ready.mono hext
    stored := hcounted.ready.stored_mono hext hcounted.stored }

/-- An Event written past the others leaves a batch. -/
theorem EventBatch.Ready.append {batch : EventBatch J} (hready : batch.Ready reader db v)
    {event : Event J} (hevent : ∀ earlier ∈ v.history, earlier.id < event.id) :
    batch.Ready reader db (v.append event) := by
  obtain ⟨last, hlast, hid⟩ := hready.last
  have hkey : (batch.through : WithBot UUID) < event.key :=
    WithBot.coe_lt_coe.mpr (hid ▸ hevent last hlast)
  refine { hready with
    events := hready.events.trans (between_append_of_lt hkey).symm
    last := ⟨last, List.mem_append_left _ hlast, hid⟩ }

/-- The range of a batch is the same once an Event is written past it. -/
theorem EventBatch.Ready.rangeOf_append {batch : EventBatch J} (hready : batch.Ready reader db v)
    {event : Event J} (hevent : ∀ earlier ∈ v.history, earlier.id < event.id) :
    rangeOf (v.append event).history batch.range = rangeOf v.history batch.range := by
  obtain ⟨last, hlast, hid⟩ := hready.last
  have hlt : batch.through < event.id := hid ▸ hevent last hlast
  exact View.rangeOf_append hlt

/-- An Event written past the others leaves what an attempt holds. -/
theorem Attempt.Reads.append {attempt : Attempt} {events : List (Event J)} {project : ProjectID}
    (hinv : v.Inv reader db project) (hreads : attempt.Reads v events) {event : Event J}
    (hevent : ∀ earlier ∈ v.history, earlier.id < event.id) :
    attempt.Reads (v.append event) events := by
  have hreach : v.reach < event.key := hinv.reach_lt hevent
  refine ⟨hreads.after, fun hfresh => ?_, fun through hagain => ?_⟩
  · obtain ⟨hrec, hfront, hlength⟩ := hreads.fresh hfresh
    refine ⟨hrec, ?_, hlength⟩
    have hpast : past Event.key (v.append event).history (v.append event).pebble.cursor =
        past Event.key v.history v.pebble.cursor ++ [event] :=
      past_append_of_lt (hinv.cursor_le_reach.trans_lt hreach)
    rw [hpast]
    exact hfront.trans (List.prefix_append _ _)
  · obtain ⟨hrec, hevents⟩ := hreads.again through hagain
    refine ⟨hrec, hevents.trans ?_⟩
    have hthrough : (through : WithBot UUID) < event.key := by
      rw [View.reach, hrec] at hreach
      exact hreach
    exact (between_append_of_lt hthrough).symm

/-- Later Issue work leaves the worker. -/
theorem Phase.Inv.mono {view : ProjectID → View J} {phase : Phase J}
    (hinv : phase.Inv reader db view) (hext : db'.Extends db) : phase.Inv reader db' view := by
  cases phase with
  | idle => trivial
  | working attempt done rows event rest waiting => exact ⟨hinv.1, hinv.2.mono hext⟩
  | worked batch again failing => exact ⟨hinv.1.mono hext, hinv.2⟩
  | recorded batch failing => exact ⟨hinv.1.mono hext, hinv.2⟩
  | inserted batch failing =>
    obtain ⟨hready, hrec, hstored⟩ := hinv
    exact ⟨hready.mono hext, hrec, hready.stored_mono hext hstored⟩
  | counted batch failing => exact EventBatch.Counted.mono hinv hext
  | enqueued batch failing => exact hinv.imp_left fun hcounted => hcounted.mono hext

/-- An Event written past those of its Project leaves the worker. -/
theorem Phase.Inv.append {view view' : ProjectID → View J} {phase : Phase J}
    (hinv : phase.Inv reader db view) (hviews : ∀ project, (view project).Inv reader db project)
    (project : ProjectID) (event : Event J)
    (hview : ∀ other, view' other =
      if other = project then (view other).append event else view other)
    (hevent : ∀ earlier ∈ (view project).history, earlier.id < event.id) :
    phase.Inv reader db view' := by
  have hready : ∀ batch : EventBatch J, batch.Ready reader db (view batch.project) →
      batch.Ready reader db (view' batch.project) := by
    intro batch hready
    rw [hview]
    split
    · rename_i hproject
      exact hready.append (hproject ▸ hevent)
    · exact hready
  have hrecorded : ∀ other, (view' other).pebble.recorded = (view other).pebble.recorded := by
    intro other
    rw [hview]
    split <;> rfl
  have hseen : ∀ other, (view' other).seen = (view other).seen := by
    intro other
    rw [hview]
    split <;> rfl
  have hstored : ∀ batch : EventBatch J, batch.Ready reader db (view batch.project) →
      (view batch.project).ledger.Stored (eventRows reader db batch.project)
        (rangeOf (view batch.project).history batch.range) →
      (view' batch.project).ledger.Stored (eventRows reader db batch.project)
        (rangeOf (view' batch.project).history batch.range) := by
    intro batch hready hstored
    rw [hview]
    split
    · rename_i hproject
      rw [hready.rangeOf_append (hproject ▸ hevent)]
      exact hstored
    · exact hstored
  have hcursor : ∀ other, (view' other).pebble.cursor = (view other).pebble.cursor := by
    intro other
    rw [hview]
    split <;> rfl
  have hcounted : ∀ batch : EventBatch J, batch.Counted reader db (view batch.project) →
      batch.Counted reader db (view' batch.project) := fun batch h =>
    ⟨hready batch h.ready, (hrecorded batch.project).trans h.recorded,
      hstored batch h.ready h.stored, h.counted.imp_right (hseen batch.project).trans⟩
  cases phase with
  | idle => trivial
  | working attempt done rows other rest waiting =>
    refine ⟨?_, hinv.2⟩
    rw [hview]
    split
    · rename_i hproject
      exact hinv.1.append (hviews attempt.project) (hproject ▸ hevent)
    · exact hinv.1
  | worked batch again failing =>
    refine ⟨hready batch hinv.1, ?_⟩
    rw [hrecorded]
    exact hinv.2
  | recorded batch failing =>
    exact ⟨hready batch hinv.1, (hrecorded batch.project).trans hinv.2⟩
  | inserted batch failing =>
    exact ⟨hready batch hinv.1, (hrecorded batch.project).trans hinv.2.1,
      hstored batch hinv.1 hinv.2.2⟩
  | counted batch failing => exact hcounted batch hinv
  | enqueued batch failing =>
    rw [Phase.Inv, hrecorded, hcursor]
    exact hinv.imp_left (hcounted batch)

end Framing

/-- What ties Pebble, SQLite, ClickHouse and the worker over every run whose ids increase within
each Project. -/
structure EventInv (reader : PayloadReader J) (s : System J) : Prop where
  processes : ∀ w ∈ s.written, w.process ≤ s.process
  /-- A process's ids come after those its Project had before. -/
  starts : ∀ w ∈ s.written, w.process = s.process → ∀ earlier ∈ s.written,
    earlier.process ≠ s.process → earlier.project = w.project → earlier.event.id < w.event.id
  db : s.sqlite.Inv
  view : ∀ project, (s.view project).Inv reader s.sqlite project
  counts : Counts reader s.sqlite s.historyOf
  worker : s.worker.Inv reader s.sqlite s.view

section Steps

variable {reader : PayloadReader J} {s t : System J}

/-- The invariant holds before anything is written. -/
theorem EventInv.init : EventInv reader (System.init : System J) where
  processes := by simp [System.init]
  starts := by simp [System.init]
  db := SQLite.Inv.new
  view := fun _ => View.Inv.new
  counts := by simp [Counts, System.init, SQLite.new]
  worker := trivial

/-- A Project's history is the events written to it. -/
theorem System.mem_historyOf {project : ProjectID} {event : Event J} :
    event ∈ s.historyOf project ↔ ∃ w ∈ s.written, w.project = project ∧ w.event = event := by
  simp [System.historyOf, and_assoc]

/-- An id that increases within its process, and starts above the earlier ones, comes after every
Event of its Project. -/
theorem EventInv.lt_newV7 (hinv : EventInv reader s) {project : ProjectID} {raw : J} {newV7 : UUID}
    (hids : s.idsIncrease (.writeEvent project raw newV7))
    (hstarts : s.startsAbove (.writeEvent project raw newV7)) :
    ∀ event ∈ s.historyOf project, event.id < newV7 := by
  intro event hevent
  obtain ⟨w, hw, hproject, rfl⟩ := System.mem_historyOf.mp hevent
  by_cases hprocess : w.process = s.process
  · exact hids w hw hprocess
  · by_cases hfirst : ∀ other ∈ s.written, other.process = s.process → other.project ≠ project
    · exact hstarts hfirst w hw hproject
    · push Not at hfirst
      obtain ⟨other, hother, hcurrent, hsame⟩ := hfirst
      have hbefore := hinv.starts other hother hcurrent w hw hprocess (hproject.trans hsame.symm)
      exact hbefore.trans (hids other hother hcurrent)

/-- The worker may go anywhere its phase's facts hold. -/
theorem EventInv.setWorker (hinv : EventInv reader s) {worker : Phase J}
    (hworker : worker.Inv reader s.sqlite s.view) : EventInv reader { s with worker } :=
  { hinv with worker := hworker }

/-- Issue work: fingerprints lead where they led, and no Event is counted. -/
theorem EventInv.extend (hinv : EventInv reader s) {db : SQLite} (hdb : db.Inv)
    (hext : db.Extends s.sqlite) (hseen : db.seen = s.sqlite.seen)
    (hcases : ∀ issue ∈ db.issues, (∃ old ∈ s.sqlite.issues, old.id = issue.id ∧
      old.project = issue.project ∧ old.timesSeen = issue.timesSeen) ∨
      issue.timesSeen = 0 ∧ s.sqlite.issues.length < issue.id) :
    EventInv reader { s with sqlite := db } := by
  have hview : ({ s with sqlite := db } : System J).view = s.view := by
    funext project
    simp only [System.view, hseen]
    rfl
  refine ⟨hinv.processes, hinv.starts, hdb, ?_, ?_, ?_⟩
  · intro project
    rw [hview]
    exact (hinv.view project).mono hext
  · refine hinv.counts.of_extends hinv.db hext hseen (fun project event hevent => ?_) hcases
    obtain ⟨hmem, hle⟩ := mem_upTo.mp hevent
    have hviewInv := hinv.view project
    exact hviewInv.issues event (mem_upTo.mpr ⟨hmem, hle.trans
      (hviewInv.seen_le_frontier.trans hviewInv.frontier_le_reach)⟩)
  · rw [hview]
    exact hinv.worker.mono hext

/-- A changed status counts nothing. -/
theorem EventInv.setStatus (hinv : EventInv reader s) (issueID : ℕ) (status : IssueStatus) :
    EventInv reader { s with sqlite := s.sqlite.setStatus issueID status } := by
  have hid : ∀ issue : Issue,
      (if issue.id = issueID then { issue with status := status } else issue).id = issue.id := by
    intro issue
    split <;> rfl
  have hproject : ∀ issue : Issue,
      (if issue.id = issueID then { issue with status := status } else issue).project =
        issue.project := by
    intro issue
    split <;> rfl
  refine hinv.extend (hinv.db.of_map hid hproject rfl rfl) (SQLite.extends_of_map hid rfl rfl) rfl ?_
  intro issue hissue
  obtain ⟨old, hold, rfl⟩ := List.mem_map.mp hissue
  refine Or.inl ⟨old, hold, (hid old).symm, (hproject old).symm, ?_⟩
  split <;> rfl

/-- An Event's Issue work. -/
theorem EventInv.issueWork (hinv : EventInv reader s) (project : ProjectID) (event : Event J)
    {details : IssueDetails} (hdetails : reader.details event.raw = some details) :
    EventInv reader { s with sqlite := (issueWork reader s.sqlite project event details).1 } := by
  obtain ⟨hdb, hext, -, -⟩ := issueWork_spec reader hinv.db project event hdetails
  rw [EventProcessing.issueWork] at hdb hext ⊢
  cases hfound : s.sqlite.findIssueByFingerprint project details.fingerprint with
  | none =>
    simp only [hfound] at hdb hext
    refine hinv.extend hdb hext rfl fun issue hissue => ?_
    rcases List.mem_append.mp hissue with hissue | hissue
    · exact Or.inl ⟨issue, hissue, rfl, rfl, rfl⟩
    · obtain rfl := List.mem_singleton.mp hissue
      exact Or.inr ⟨rfl, Nat.lt_succ_self _⟩
  | some found =>
    dsimp only
    split
    · exact hinv.setStatus found.issueID .open
    · exact hinv

/-- How a write ends: every way the worker may go on keeps the invariant. -/
theorem EventInv.settle {wrote : System J} {next retry : Phase J}
    (hnext : EventInv reader { wrote with worker := next })
    (hwrote : EventInv reader { wrote with worker := retry })
    (hretry : EventInv reader { s with worker := retry }) (outcome : Outcome) :
    EventInv reader (s.settle wrote next retry outcome) := by
  cases outcome
  · exact hnext
  · exact hwrote
  · exact hretry

/-- A change to one Project's view that keeps its invariant, with the guards and the history left,
keeps the invariant if the worker's facts hold. -/
theorem EventInv.update (hinv : EventInv reader s) (hwritten : t.written = s.written)
    (hprocess : t.process = s.process) (hsqlite : t.sqlite = s.sqlite) (project : ProjectID)
    (hothers : ∀ other, other ≠ project → t.view other = s.view other)
    (hview : (t.view project).Inv reader s.sqlite project)
    (hworker : t.worker.Inv reader s.sqlite t.view) : EventInv reader t := by
  have hhistory : t.historyOf = s.historyOf := by
    funext other
    rw [System.historyOf, System.historyOf, hwritten]
  refine ⟨?_, ?_, hsqlite ▸ hinv.db, fun other => ?_, ?_, hsqlite ▸ hworker⟩
  · rw [hwritten, hprocess]
    exact hinv.processes
  · rw [hwritten, hprocess]
    exact hinv.starts
  · rw [hsqlite]
    by_cases hother : other = project
    · exact hother ▸ hview
    · rw [hothers other hother]
      exact hinv.view other
  · rw [hsqlite, hhistory]
    exact hinv.counts

/-- A write appends its Event to its Project's view, and leaves the others. -/
theorem System.view_writeEvent (project : ProjectID) (raw : J) (newV7 : UUID)
    (hrefusing : s.refusing = false) (other : ProjectID) :
    (s.writeEvent project raw newV7).view other =
      if other = project then (s.view other).append ⟨newV7, raw⟩ else s.view other := by
  rw [System.writeEvent, hrefusing]
  by_cases hother : other = project
  · subst hother
    simp [System.view, System.historyOf, View.append]
  · simp [System.view, System.historyOf, hother, Ne.symm hother]

/-- Writing an event keeps the invariant. -/
theorem EventInv.writeEvent (hinv : EventInv reader s) {project : ProjectID} {raw : J} {newV7 : UUID}
    (hids : s.idsIncrease (.writeEvent project raw newV7))
    (hstarts : s.startsAbove (.writeEvent project raw newV7)) :
    EventInv reader (s.writeEvent project raw newV7) := by
  have hlt := hinv.lt_newV7 hids hstarts
  cases hrefusing : s.refusing with
  | true =>
    rw [System.writeEvent, hrefusing]
    exact hinv
  | false =>
    have hview := System.view_writeEvent project raw newV7 hrefusing
    have hwritten : (s.writeEvent project raw newV7).written =
        s.written ++ [⟨s.process, project, ⟨newV7, raw⟩⟩] := by
      simp [System.writeEvent, hrefusing]
    have hprocess : (s.writeEvent project raw newV7).process = s.process := by
      simp [System.writeEvent, hrefusing]
    have hsqlite : (s.writeEvent project raw newV7).sqlite = s.sqlite := by
      simp [System.writeEvent, hrefusing]
    have hworker : (s.writeEvent project raw newV7).worker = s.worker := by
      simp [System.writeEvent, hrefusing]
    refine ⟨?_, ?_, hsqlite ▸ hinv.db, fun other => ?_, ?_, ?_⟩
    · rw [hwritten, hprocess]
      intro w hw
      rcases List.mem_append.mp hw with hw | hw
      · exact hinv.processes w hw
      · rw [List.mem_singleton.mp hw]
    · rw [hwritten, hprocess]
      intro w hw hcurrent earlier hearlier hbefore hsame
      rcases List.mem_append.mp hearlier with hearlier | hearlier
      · rcases List.mem_append.mp hw with hw | hw
        · exact hinv.starts w hw hcurrent earlier hearlier hbefore hsame
        · rw [List.mem_singleton.mp hw] at hsame ⊢
          exact hlt _ (System.mem_historyOf.mpr ⟨earlier, hearlier, hsame, rfl⟩)
      · rw [List.mem_singleton.mp hearlier] at hbefore
        exact absurd rfl hbefore
    · rw [hsqlite, hview]
      split
      · rename_i hother
        subst hother
        exact (hinv.view other).append _ hlt
      · exact hinv.view other
    · rw [hsqlite]
      intro issue hissue
      rw [hinv.counts issue hissue]
      have hhistory : (s.writeEvent project raw newV7).historyOf issue.project =
          ((s.writeEvent project raw newV7).view issue.project).history := rfl
      rw [hhistory, hview]
      split
      · rename_i hother
        have hviewInv := hinv.view issue.project
        have hseen : s.sqlite.seen issue.project < (⟨newV7, raw⟩ : Event J).key :=
          (hviewInv.seen_le_frontier.trans hviewInv.frontier_le_reach).trans_lt
            (hviewInv.reach_lt (hother ▸ hlt))
        rw [View.append, upTo_append_of_lt hseen]
        rfl
      · rfl
    · rw [hsqlite, hworker]
      exact hinv.worker.append hinv.view project ⟨newV7, raw⟩ hview hlt

/-- Trying an Event's Issue work. -/
theorem EventInv.work (hinv : EventInv reader s) {attempt : Attempt} {done rest : List (Event J)}
    {rows : List WorkedRow} {event : Event J} (waiting : Waiting)
    (hreads : attempt.Reads (s.view attempt.project) (done ++ event :: rest))
    (hrows : RowsOf reader s.sqlite attempt.project done rows) (outcome : Outcome) :
    EventInv reader (s.work reader attempt done rows event rest waiting outcome) := by
  have hreads' : attempt.Reads (s.view attempt.project) ((done ++ [event]) ++ rest) := by
    rwa [List.append_assoc, List.singleton_append]
  rw [System.work]
  cases hdetails : reader.details event.raw with
  | none =>
    have hskip : RowsOf reader s.sqlite attempt.project (done ++ [event]) rows := by
      refine ⟨?_, ?_⟩
      · simp [hrows.rows, workedRow, hdetails]
      · intro other hother
        rcases List.mem_append.mp hother with hother | hother
        · exact hrows.issues other hother
        · intro details hsome
          rw [List.mem_singleton.mp hother, hdetails] at hsome
          simp at hsome
    dsimp only
    split
    · exact hinv.setWorker (hreads'.advance (hinv.view attempt.project) hskip)
    · exact hinv.setWorker ⟨hreads, hrows⟩
  | some details =>
    have hworked := hinv.issueWork attempt.project event hdetails
    obtain ⟨hdb, hext, hissue, hrow⟩ := issueWork_spec reader hinv.db attempt.project event hdetails
    have hview : ({ s with sqlite := (EventProcessing.issueWork reader s.sqlite attempt.project event
        details).1 } : System J).view = s.view := by
      funext project
      have hseen : (EventProcessing.issueWork reader s.sqlite attempt.project event details).1.seen =
          s.sqlite.seen := by
        rw [EventProcessing.issueWork]
        split
        · dsimp only
          split <;> rfl
        · rfl
      simp only [System.view, hseen]
      rfl
    have hnext : RowsOf reader (EventProcessing.issueWork reader s.sqlite attempt.project event
        details).1 attempt.project (done ++ [event]) (rows ++ [(EventProcessing.issueWork reader
          s.sqlite attempt.project event details).2]) := by
      have hdone := hrows.mono hext
      refine ⟨?_, ?_⟩
      · rw [List.map_append, List.filterMap_append, hdone.rows, List.map_singleton,
          List.filterMap_cons_some hrow, List.filterMap_nil]
      · intro other hother
        rcases List.mem_append.mp hother with hother | hother
        · exact hdone.issues other hother
        · exact List.mem_singleton.mp hother ▸ hissue
    refine EventInv.settle (hworked.setWorker ?_) (hworked.setWorker ?_) (hinv.setWorker ?_) outcome
    · rw [hview]
      refine Attempt.Reads.advance ?_ hreads' hnext
      rw [← hview]
      exact hworked.view attempt.project
    · rw [hview]
      exact ⟨hreads, hrows.mono hext⟩
    · exact ⟨hreads, hrows⟩

/-- Recording the range of a batch. -/
theorem EventInv.recordEventRange (hinv : EventInv reader s) {batch : EventBatch J}
    (hready : batch.Ready reader s.sqlite (s.view batch.project))
    (hrec : (s.view batch.project).pebble.recorded = some batch.range ∨
      (s.view batch.project).pebble.recorded = none) {worker : Phase J}
    (hworker : worker.Inv reader s.sqlite (s.recordEventRange batch).view) :
    EventInv reader { s.recordEventRange batch with worker } := by
  have hitems : batch.events = (rangeOf (s.view batch.project).history batch.range).items :=
    hready.events
  have hviewInv := hinv.view batch.project
  refine hinv.update rfl rfl rfl batch.project (fun other hother => ?_) ?_ hworker
  · simp [System.view, System.historyOf, System.recordEventRange, hother]
  · have hview : ({ s.recordEventRange batch with worker } : System J).view batch.project =
        (s.view batch.project).record batch.range
          (rangeOf (s.view batch.project).history batch.range).items := by
      rw [← hitems]
      simp [System.view, System.historyOf, System.recordEventRange, View.record, EventBatch.range]
    rw [hview]
    rcases hrec with hrec | hnone
    · -- it was recorded, and recording it again changes nothing
      have hsame : (s.view batch.project).record batch.range
          (rangeOf (s.view batch.project).history batch.range).items = s.view batch.project := by
        refine View.ext rfl ?_ rfl (hviewInv.recorded _ hrec).1.symm rfl
        rw [View.record, PebbleEvents.recordEventRange, ← hrec]
      rw [hsame]
      exact hviewInv
    · exact hviewInv.record hnone batch.range hready.after hready.nonempty
        (hitems ▸ hready.length) hready.last fun event hevent =>
          hready.rows.issues event (hitems ▸ hevent)

/-- Once recorded, a batch is ready still, and its range is the recorded one. -/
theorem EventBatch.Ready.recorded {batch : EventBatch J}
    (hready : batch.Ready reader s.sqlite (s.view batch.project)) :
    batch.Ready reader s.sqlite ((s.recordEventRange batch).view batch.project) ∧
      ((s.recordEventRange batch).view batch.project).pebble.recorded = some batch.range := by
  refine ⟨{ hready with after := ?_ }, ?_⟩
  · refine hready.after.trans ?_
    simp [System.view, System.recordEventRange, PebbleEvents.recordEventRange]
  · simp [System.view, System.recordEventRange, PebbleEvents.recordEventRange, EventBatch.range]

/-- Inserting the rows of a recorded batch. -/
theorem System.view_insertEvents (batch : EventBatch J) (other : ProjectID) :
    (s.insertEvents batch).view other = if other = batch.project then
      (s.view other).insert batch.range (batch.stored.map WorkedRow.row) else s.view other := by
  by_cases hother : other = batch.project
  · subst hother
    simp [System.view, System.historyOf, System.insertEvents, View.insert, EventBatch.range]
  · simp [System.view, System.historyOf, System.insertEvents, hother]

/-- Inserting the events of a batch keeps the invariant. -/
theorem EventInv.insertEvents (hinv : EventInv reader s) {batch : EventBatch J}
    (hready : batch.Ready reader s.sqlite (s.view batch.project))
    (hrec : (s.view batch.project).pebble.recorded = some batch.range) {worker : Phase J}
    (hworker : worker.Inv reader s.sqlite (s.insertEvents batch).view) :
    EventInv reader { s.insertEvents batch with worker } := by
  refine hinv.update rfl rfl rfl batch.project (fun other hother => ?_) ?_ hworker
  · exact (System.view_insertEvents (s := s) batch other).trans (if_neg hother)
  · have hview : ({ s.insertEvents batch with worker } : System J).view batch.project =
        (s.view batch.project).insert batch.range (batch.stored.map WorkedRow.row) :=
      (System.view_insertEvents (s := s) batch batch.project).trans (if_pos rfl)
    rw [hview]
    refine (hinv.view batch.project).insert hrec _ ?_
    rw [EventBatch.stored, hready.rows.stored_rows, hready.events]
    rfl

/-- Once inserted, a batch is ready still, recorded and stored. -/
theorem EventBatch.Ready.inserted {batch : EventBatch J}
    (hready : batch.Ready reader s.sqlite (s.view batch.project))
    (hrec : (s.view batch.project).pebble.recorded = some batch.range) :
    batch.Ready reader s.sqlite ((s.insertEvents batch).view batch.project) ∧
      ((s.insertEvents batch).view batch.project).pebble.recorded = some batch.range ∧
      ((s.insertEvents batch).view batch.project).ledger.Stored
        (eventRows reader s.sqlite batch.project)
        (rangeOf ((s.insertEvents batch).view batch.project).history batch.range) := by
  have hrows : batch.stored.map WorkedRow.row =
      (rangeOf (s.view batch.project).history batch.range).items.flatMap
        (eventRows reader s.sqlite batch.project) := by
    rw [EventBatch.stored, hready.rows.stored_rows, hready.events]
    rfl
  rw [System.view_insertEvents, if_pos rfl]
  refine ⟨{ hready with }, hrec, ?_⟩
  rw [View.ledger_insert batch.range _ hrows]
  exact Ledger.State.stored_insert _ _

/-- A batch with rows, once stored, is stored under its token. -/
theorem EventBatch.Ready.token_mem {batch : EventBatch J}
    (hready : batch.Ready reader s.sqlite (s.view batch.project))
    (hstored : (s.view batch.project).ledger.Stored (eventRows reader s.sqlite batch.project)
      (rangeOf (s.view batch.project).history batch.range))
    (hrows : batch.stored ≠ []) : (batch.range.after, (batch.range.through : WithBot UUID)) ∈
      (s.view batch.project).table.tokens := by
  refine hstored.resolve_right fun hnone => hrows ?_
  have hmap : batch.stored.map WorkedRow.row = [] := by
    rw [EventBatch.stored, hready.rows.stored_rows, hready.events]
    exact hnone
  exact List.map_eq_nil_iff.mp hmap

/-- Counting a stored batch. -/
theorem EventInv.recordSeenEvents (hinv : EventInv reader s) {batch : EventBatch J}
    (hready : batch.Ready reader s.sqlite (s.view batch.project))
    (hrec : (s.view batch.project).pebble.recorded = some batch.range)
    (hstored : (s.view batch.project).ledger.Stored (eventRows reader s.sqlite batch.project)
      (rangeOf (s.view batch.project).history batch.range))
    (hrows : batch.stored ≠ []) :
    EventInv reader { s.recordSeenEvents batch with worker := .counted batch false } ∧
      EventInv reader { s.recordSeenEvents batch with worker := .inserted batch true } := by
  have hviewInv := hinv.view batch.project
  have htoken := hready.token_mem hstored hrows
  obtain ⟨_, hlt⟩ := hviewInv.recorded_after hrec
  by_cases hdone : (batch.through : WithBot UUID) ≤ s.sqlite.seen batch.project
  · -- the range is counted already, before a crash
    have hsame : s.recordSeenEvents batch = s := by
      rw [System.recordSeenEvents, SQLite.recordSeenEvents, if_pos hdone]
    have hseen : (s.view batch.project).seen = batch.through := by
      refine le_antisymm ?_ hdone
      rcases hviewInv.seen with hle | ⟨range, hother, hseen, _⟩
      · exact absurd (hdone.trans hle) hlt.not_ge
      · obtain rfl := Option.some.inj (hrec.symm.trans hother)
        exact hseen.le
    rw [hsame]
    exact ⟨hinv.setWorker ⟨hready, hrec, hstored, Or.inr hseen⟩,
      hinv.setWorker ⟨hready, hrec, hstored⟩⟩
  · have hseen : s.sqlite.seen batch.project ≤ batch.after := by
      rw [hready.after]
      refine hviewInv.seen.resolve_right ?_
      rintro ⟨range, hother, hseen, _⟩
      obtain rfl := Option.some.inj (hrec.symm.trans hother)
      exact hdone hseen.ge
    have hseen' : (s.recordSeenEvents batch).sqlite.seen =
        Function.update s.sqlite.seen batch.project batch.through := by
      rw [System.recordSeenEvents, SQLite.recordSeenEvents, if_neg hdone]
    have hmap := hdone
    have hext : (s.recordSeenEvents batch).sqlite.Extends s.sqlite := by
      rw [System.recordSeenEvents, SQLite.recordSeenEvents, if_neg hdone]
      exact SQLite.extends_of_map (fun _ => SQLite.addSeen_id _ _) rfl rfl
    have hdb : (s.recordSeenEvents batch).sqlite.Inv := by
      rw [System.recordSeenEvents, SQLite.recordSeenEvents, if_neg hdone]
      exact hinv.db.of_map (fun _ => SQLite.addSeen_id _ _) (fun _ => SQLite.addSeen_project _ _)
        rfl rfl
    have hview : ∀ other, (s.recordSeenEvents batch).view other = if other = batch.project then
        (s.view other).count batch.through else s.view other := by
      intro other
      by_cases hother : other = batch.project
      · subst hother
        simp only [System.view, hseen', Function.update_self, if_true, View.count]
        rfl
      · simp only [System.view, hseen', Function.update_of_ne hother, if_neg hother]
        rfl
    have hissues : ∀ other, ∀ event ∈ upTo Event.key (s.historyOf other)
        (Function.update s.sqlite.seen batch.project (batch.through : WithBot UUID) other),
        HasIssue reader s.sqlite other event := by
      intro other event hevent
      obtain ⟨hmem, hle⟩ := mem_upTo.mp hevent
      have hotherInv := hinv.view other
      refine hotherInv.issues event (mem_upTo.mpr ⟨hmem, hle.trans ?_⟩)
      by_cases hother : other = batch.project
      · subst hother
        rw [Function.update_self, View.reach, hrec]
        exact le_rfl
      · rw [Function.update_of_ne hother]
        exact hotherInv.seen_le_frontier.trans hotherInv.frontier_le_reach
    have hcounts : Counts reader (s.recordSeenEvents batch).sqlite s.historyOf := by
      have hstoredRows := hready.rows.stored
      rw [hready.events] at hstoredRows
      refine hinv.counts.recordSeenEvents hinv.db batch.stored hviewInv.ledger.increasing hseen
        hready.nonempty (fun event hevent => ?_) hstoredRows hissues
      exact hviewInv.gap event (hready.after ▸ hevent)
    have hviews : ∀ other, ((s.recordSeenEvents batch).view other).Inv reader
        (s.recordSeenEvents batch).sqlite other := by
      intro other
      rw [hview]
      split
      · rename_i hother
        subst hother
        exact (hviewInv.count hrec htoken).mono hext
      · exact (hinv.view other).mono hext
    have hphase : batch.Ready reader (s.recordSeenEvents batch).sqlite
          ((s.recordSeenEvents batch).view batch.project) ∧
        ((s.recordSeenEvents batch).view batch.project).pebble.recorded = some batch.range ∧
        ((s.recordSeenEvents batch).view batch.project).ledger.Stored
          (eventRows reader (s.recordSeenEvents batch).sqlite batch.project)
          (rangeOf ((s.recordSeenEvents batch).view batch.project).history batch.range) ∧
        ((s.recordSeenEvents batch).view batch.project).seen = batch.through := by
      rw [hview, if_pos rfl]
      exact ⟨{ hready.mono hext with }, hrec, hready.stored_mono hext hstored, rfl⟩
    obtain ⟨hready', hrec', hstored', hcounted⟩ := hphase
    exact ⟨⟨hinv.processes, hinv.starts, hdb, hviews, hcounts,
        hready', hrec', hstored', Or.inr hcounted⟩,
      ⟨hinv.processes, hinv.starts, hdb, hviews, hcounts, hready', hrec', hstored'⟩⟩

/-- Moving the cursor past a batch that is stored and counted. -/
theorem EventInv.setProcessingCursor (hinv : EventInv reader s) {batch : EventBatch J}
    (hbatch : batch.Counted reader s.sqlite (s.view batch.project) ∨
      (s.view batch.project).pebble.recorded = none ∧
        (s.view batch.project).pebble.cursor = batch.through) {worker : Phase J}
    (hworker : worker.Inv reader s.sqlite (s.setProcessingCursor batch).view) :
    EventInv reader { s.setProcessingCursor batch with worker } := by
  refine hinv.update rfl rfl rfl batch.project (fun other hother => ?_) ?_ hworker
  · simp [System.view, System.historyOf, System.setProcessingCursor, hother]
  · have hview : ({ s.setProcessingCursor batch with worker } : System J).view
        batch.project = (s.view batch.project).move batch.range.through := by
      simp [System.view, System.historyOf, System.setProcessingCursor, View.move, EventBatch.range]
    rw [hview]
    rcases hbatch with hcounted | ⟨hnone, hcursor⟩
    · refine (hinv.view batch.project).move hcounted.recorded hcounted.stored
        (hcounted.counted.imp_left fun hnil => ?_)
      have hids := congrArg (List.map Prod.snd) hcounted.ready.rows.stored
      have hrows : batch.rows.filter (fun row => row.row.storable) = [] := hnil
      rw [map_storable_filterMap, hrows, hcounted.ready.events, List.map_nil, List.map_nil] at hids
      exact List.flatMap_eq_nil_iff.mp hids.symm
    · -- it was moved, and moving it again changes nothing
      have hsame : (s.view batch.project).move batch.range.through = s.view batch.project := by
        refine View.ext rfl ?_ rfl rfl rfl
        rw [View.move, PebbleEvents.setProcessingCursor, ← hnone]
        exact congrArg (PebbleEvents.mk _ · _) hcursor.symm
      rw [hsame]
      exact hinv.view batch.project

/-- A stop leaves the worker idle, or with the Events whose Issue work is done. -/
theorem EventInv.giveUp (hinv : EventInv reader s) {worker : Phase J}
    (hgiveUp : System.giveUp s.worker = some worker) : EventInv reader { s with worker } := by
  have hphase := hinv.worker
  cases hworker : s.worker with
  | idle => simp [hworker, System.giveUp] at hgiveUp
  | working attempt done rows event rest waiting =>
    rw [hworker] at hphase hgiveUp
    simp only [System.giveUp] at hgiveUp
    split at hgiveUp
    · simp at hgiveUp
    · obtain rfl := Option.some.inj hgiveUp
      exact hinv.setWorker trivial
    · obtain rfl := Option.some.inj hgiveUp
      exact hinv.setWorker trivial
    · rename_i hfresh
      obtain rfl := Option.some.inj hgiveUp
      exact hinv.setWorker ((hphase.1.cut hfresh).finish (hinv.view attempt.project) hphase.2)
  | worked batch again failing | recorded batch failing | inserted batch failing
  | counted batch failing | enqueued batch failing =>
    rw [hworker] at hgiveUp
    obtain ⟨-, heq⟩ := Option.ite_none_right_eq_some.mp hgiveUp
    obtain rfl := Option.some.inj heq
    exact hinv.setWorker trivial

/-- Reading a batch keeps the invariant: it reads on from the cursor, or the recorded range. -/
theorem EventInv.read (hinv : EventInv reader s) {project : ProjectID}
    (hstep : s.step reader (.read project) = some t) : EventInv reader t := by
  obtain ⟨-, rfl⟩ := System.step_read hstep
  have hviewInv := hinv.view project
  obtain ⟨hreads, hproject⟩ := hviewInv.readBatch_reads
  have hrows : RowsOf reader s.sqlite (readBatch (s.pebble project) project).1.project [] [] :=
    ⟨rfl, by simp⟩
  refine hinv.setWorker (Attempt.Reads.advance (hinv.view _) ?_ hrows)
  have hsame : (readBatch (s.pebble project) project).1.project = project := hproject
  rw [hsame]
  exact hreads

/-- An Event's Issue work keeps the invariant, and so does a stop before it. -/
theorem EventInv.workOrStop (hinv : EventInv reader s) {outcome : Outcome}
    (hstep : s.step reader (.issueWork outcome) = some t) : EventInv reader t := by
  obtain ⟨attempt, done, rows, event, rest, waiting, hworker, hcases⟩ := System.step_issueWork hstep
  have hphase := hinv.worker
  rw [hworker] at hphase
  rcases hcases with ⟨-, rfl⟩ | ⟨-, rfl⟩
  · refine hinv.setWorker ?_
    cases hagain : attempt.again with
    | none => exact (hphase.1.cut hagain).finish (hinv.view attempt.project) hphase.2
    | some through => trivial
  · exact hinv.work waiting hphase.1 hphase.2 outcome

/-- Recording a batch's range keeps the invariant. -/
theorem EventInv.record (hinv : EventInv reader s) {outcome : Outcome}
    (hstep : s.step reader (.record outcome) = some t) : EventInv reader t := by
  obtain ⟨batch, again, failing, hworker, hcases⟩ := System.step_record hstep
  have hphase := hinv.worker
  rw [hworker] at hphase
  obtain ⟨hready, hrec⟩ := hphase
  rcases hcases with ⟨hagain, rfl⟩ | ⟨-, rfl⟩
  · exact hinv.setWorker ⟨hready, hrec.resolve_right fun h => by simp [h.1] at hagain⟩
  · have hrecorded := hready.recorded
    have hrec' := hrec.imp_right And.right
    refine EventInv.settle ?_ ?_ ?_ outcome
    · exact hinv.recordEventRange hready hrec' hrecorded
    · exact hinv.recordEventRange hready hrec' ⟨hrecorded.1, Or.inl hrecorded.2⟩
    · exact hinv.setWorker ⟨hready, hrec⟩

/-- Inserting the rows of a recorded batch keeps the invariant. -/
theorem EventInv.insert (hinv : EventInv reader s) {outcome : Outcome}
    (hstep : s.step reader (.insert outcome) = some t) : EventInv reader t := by
  obtain ⟨batch, failing, hworker, rfl⟩ := System.step_insert hstep
  have hphase := hinv.worker
  rw [hworker] at hphase
  obtain ⟨hready, hrec⟩ := hphase
  have hinserted := hready.inserted hrec
  refine EventInv.settle ?_ ?_ ?_ outcome
  · exact hinv.insertEvents hready hrec hinserted
  · exact hinv.insertEvents hready hrec ⟨hinserted.1, hinserted.2.1⟩
  · exact hinv.setWorker ⟨hready, hrec⟩

/-- Counting the rows of an inserted batch keeps the invariant. -/
theorem EventInv.count (hinv : EventInv reader s) {outcome : Outcome}
    (hstep : s.step reader (.count outcome) = some t) : EventInv reader t := by
  obtain ⟨batch, failing, hworker, hcases⟩ := System.step_count hstep
  have hphase := hinv.worker
  rw [hworker] at hphase
  obtain ⟨hready, hrec, hstored⟩ := hphase
  rcases hcases with ⟨hnone, rfl⟩ | ⟨hrows, rfl⟩
  · exact hinv.setWorker ⟨hready, hrec, hstored, Or.inl hnone⟩
  · obtain ⟨hcounted, hretried⟩ := hinv.recordSeenEvents hready hrec hstored hrows
    exact EventInv.settle hcounted hretried (hinv.setWorker ⟨hready, hrec, hstored⟩) outcome

/-- Enqueueing messages keeps the invariant, wherever it fails. -/
theorem EventInv.enqueue (hinv : EventInv reader s) {failsAfter : Option ℕ}
    (hstep : s.step reader (.enqueue failsAfter) = some t) : EventInv reader t := by
  obtain ⟨batch, failing, hworker, hcases⟩ := System.step_enqueue hstep
  have hphase := hinv.worker
  rw [hworker] at hphase
  rcases hcases with ⟨-, rfl⟩ | ⟨sent, -, rfl⟩
  · exact { hinv with worker := Or.inl hphase }
  · exact { hinv with worker := hphase }

/-- Moving the cursor past a counted batch keeps the invariant. -/
theorem EventInv.moveCursor (hinv : EventInv reader s) {outcome : Outcome}
    (hstep : s.step reader (.moveCursor outcome) = some t) : EventInv reader t := by
  obtain ⟨batch, failing, hworker, rfl⟩ := System.step_moveCursor hstep
  have hphase := hinv.worker
  rw [hworker] at hphase
  refine EventInv.settle ?_ ?_ ?_ outcome
  · exact hinv.setProcessingCursor hphase trivial
  · refine hinv.setProcessingCursor hphase (Or.inr ?_)
    simp [System.view, System.setProcessingCursor, PebbleEvents.setProcessingCursor]
  · exact hinv.setWorker hphase

/-- The start of the next process keeps the invariant: it has written nothing yet. -/
theorem EventInv.restart (hinv : EventInv reader s) : EventInv reader { s with
    worker := .idle, refusing := false, stopped := false, process := s.process + 1 } := by
  refine { hinv with processes := ?_, starts := ?_, worker := trivial }
  · intro w hw
    exact (hinv.processes w hw).trans (Nat.le_succ _)
  · intro w hw hcurrent
    have hle := hinv.processes w hw
    have hcurrent' : w.process = s.process + 1 := hcurrent
    omega

/-- Every step keeps the invariant, as long as ids increase within each Project. -/
theorem EventInv.step (hinv : EventInv reader s) {a : Action J} (hids : s.idsIncrease a)
    (hstarts : s.startsAbove a) (hstep : s.step reader a = some t) : EventInv reader t := by
  cases a with
  | writeEvent project raw newV7 =>
    obtain rfl := Option.some.inj hstep
    exact hinv.writeEvent hids hstarts
  | stopWrites | stop =>
    obtain rfl := Option.some.inj hstep
    exact { hinv with }
  | resolveIssue issueID =>
    obtain rfl := Option.some.inj hstep
    exact hinv.setStatus issueID .resolved
  | read project => exact hinv.read hstep
  | issueWork outcome => exact hinv.workOrStop hstep
  | record outcome => exact hinv.record hstep
  | insert outcome => exact hinv.insert hstep
  | count outcome => exact hinv.count hstep
  | enqueue failsAfter => exact hinv.enqueue hstep
  | moveCursor outcome => exact hinv.moveCursor hstep
  | giveUp =>
    obtain ⟨worker, hgiveUp, rfl⟩ := System.step_giveUp hstep
    exact hinv.giveUp hgiveUp
  | restart =>
    obtain rfl := Option.some.inj hstep
    exact hinv.restart

end Steps

end SolidTrace.EventProcessing
