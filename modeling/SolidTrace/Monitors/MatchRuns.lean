import SolidTrace.Lib.MergeTake
import SolidTrace.LogProcessing.ExactlyOnce

/-!
# Match monitors read each Log once

A Match run reads the Project's Log processing cursor, then the Logs of the batches after the
cursor its last recorded run kept, up to the one it read, and keeps that one if it is recorded.
Log processing moves its cursor only once a range is stored, so what lies behind a cursor no
longer changes, and the runs' windows follow one another without a gap or an overlap.
-/

namespace SolidTrace.Monitors

open Storage LogProcessing SortedHistory Transition MergeTake

variable {L T : Type*}

/-- The most Logs a Match run lists. -/
def matchedLogs : ℕ := 10

/-- A Match monitor: its Project, its Query's filter at a run's clock and its take, and how a Log's
time and id are read. -/
structure MatchMonitor (L : Type*) where
  project : ProjectID
  passes : ℤ → L → Bool
  take : Option ℕ
  time : L → ℤ
  id : L → UUID

/-- A recorded run: the window it read, how many Logs passed, and the newest of them. -/
structure MatchRun (L : Type*) where
  now : ℤ
  after : UUID
  cursor : UUID
  total : ℕ
  logs : List L

/-- How far a run is. -/
inductive RunPhase (L : Type*) where
  | none
  | arming (cursor : UUID)
  | reading (now : ℤ) (after cursor : UUID)
  | counting (now : ℤ) (after cursor : UUID) (logs : List L) (oldTotal : ℕ)
  | answered (run : MatchRun L)

/-- Log processing beside a Match monitor. `old` is the rows of the Log files from before the logs
table, which no longer change. `armed` is the cursor the Monitor was armed at, and is not
stored. -/
structure MatchSystem (L T : Type*) where
  system : System L T
  old : List (LogRow L)
  ingestCursor : Option UUID
  phase : RunPhase L
  armed : Option UUID
  runs : List (MatchRun L)

/-- What happens around and inside a run. -/
inductive MatchAction (L T : Type*) where
  | system (action : Action L T)
  | start (now : ℤ)
  | readLogs
  | countLogs
  | record
  | fail

/-- Record a run: it keeps its cursor for the next. -/
def MatchSystem.record (s : MatchSystem L T) (run : MatchRun L) : MatchSystem L T :=
  let logs := run.logs.take matchedLogs
  { s with
    ingestCursor := some run.cursor
    phase := .none
    runs := s.runs ++ [{ run with logs, total := max run.total logs.length }] }

namespace MatchMonitor

variable (m : MatchMonitor L)

/-- Newest first: by time, then id, in the order of its bytes. -/
def newerFirst (a b : L) : Prop := m.time b < m.time a ∨ m.time a = m.time b ∧ m.id b ≤ m.id a

instance : DecidableRel m.newerFirst := fun _ _ => inferInstanceAs (Decidable (_ ∨ _))

/-- How many Logs a run asks for: the Query's take may ask for fewer. -/
def limit : ℕ :=
  match m.take with
  | some take => min matchedLogs take
  | none => matchedLogs

/-- The Logs among rows that a window holds and that pass at a clock. -/
def ingested (now : ℤ) (after cursor : UUID) (rows : List (LogRow L)) : List L :=
  (rows.filter fun row => row.project = m.project ∧ after < row.batch ∧ row.batch ≤ cursor ∧
    m.passes now row.log).map LogRow.log

/-- The newest Logs, up to the limit. -/
def newest (logs : List L) : List L := (logs.insertionSort m.newerFirst).take m.limit

/-- Start a run: arm a Monitor that has no cursor yet, and otherwise read the Log processing
cursor, before the Logs. -/
def start (s : MatchSystem L T) (now : ℤ) : RunPhase L :=
  let cursor := s.system.cursor m.project
  match s.ingestCursor with
  | none => .arming cursor
  | some after => if cursor ≤ after then .answered ⟨now, after, cursor, 0, []⟩
    else .reading now after cursor

/-- Read the newest Logs of the window. Fewer than the limit are all there are. -/
def readLogs (s : MatchSystem L T) (now : ℤ) (after cursor : UUID) : RunPhase L :=
  let old := m.newest (m.ingested now after cursor s.old)
  let oldTotal := if old.length < m.limit then old.length
    else (m.ingested now after cursor s.old).length
  let logs := if 0 < m.limit then
      mergeTake m.newerFirst (m.newest (m.ingested now after cursor s.system.table)) old m.limit
    else []
  if logs.length < m.limit then .answered ⟨now, after, cursor, logs.length, logs⟩
  else .counting now after cursor logs oldTotal

/-- Count the window's Logs. -/
def countLogs (s : MatchSystem L T) (now : ℤ) (after cursor : UUID) (logs : List L)
    (oldTotal : ℕ) : RunPhase L :=
  .answered ⟨now, after, cursor, (m.ingested now after cursor s.system.table).length + oldTotal,
    logs⟩

/-- One action. One run at a time; a run may fail at any point and then keeps no cursor. -/
def step (transform : ProjectID → UUID → L → Option L) (s : MatchSystem L T) :
    MatchAction L T → Option (MatchSystem L T)
  | .system action => (s.system.step transform action).map fun system => { s with system }
  | .start now =>
    match s.phase with
    | .none => some { s with phase := m.start s now }
    | _ => none
  | .readLogs =>
    match s.phase with
    | .reading now after cursor => some { s with phase := m.readLogs s now after cursor }
    | _ => none
  | .countLogs =>
    match s.phase with
    | .counting now after cursor logs oldTotal =>
      some { s with phase := m.countLogs s now after cursor logs oldTotal }
    | _ => none
  | .record =>
    match s.phase with
    | .arming cursor =>
      some { s with ingestCursor := some cursor, armed := some cursor, phase := .none }
    | .answered run => some (s.record run)
    | _ => none
  | .fail => some { s with phase := .none }

end MatchMonitor

/-- Before the first write, with old rows of any kind. -/
def MatchSystem.init (old : List (LogRow L)) : MatchSystem L T where
  system := System.init
  old := old
  ingestCursor := none
  phase := .none
  armed := none
  runs := []

/-- The action writes no batch under an id at or below an earlier one of its Project. -/
def MatchSystem.idsIncrease (s : MatchSystem L T) : MatchAction L T → Prop
  | .system action => s.system.idsIncrease action
  | _ => True

section Behind

variable {transform : ProjectID → UUID → L → Option L}

/-- A step of the batch store moves no cursor back. -/
theorem cursor_le_of_pebble_step {s t : BatchRun L T} {b : BatchAction L T}
    (hstep : s.step b = some t) (project : ProjectID) :
    s.writer.logProcessingCursor project ≤ t.writer.logProcessingCursor project := by
  cases b with
  | setLogProcessingCursor moved cursor =>
    obtain ⟨⟨-, hforward⟩, heq⟩ := Option.ite_none_right_eq_some.mp hstep
    obtain rfl := Option.some.inj heq
    by_cases hproject : project = moved
    · subst hproject
      simpa [PebbleWriter.logProcessingCursor, PebbleWriter.setLogProcessingCursor] using hforward.le
    · simp [PebbleWriter.logProcessingCursor, PebbleWriter.setLogProcessingCursor,
        SortedStore.Store.get?_set_of_ne _ _ hproject]
  | writeLogBatch written logs receivedAt random =>
    obtain rfl := Option.some.inj hstep
    rw [PebbleWriter.writeLogBatch]
    split <;> exact le_rfl
  | writeTransactionBatch written transactions receivedAt random =>
    obtain rfl := Option.some.inj hstep
    rw [PebbleWriter.writeTransactionBatch]
    split <;> exact le_rfl
  | recordLogInsert | recordSpanInsert | stopWrites =>
    obtain rfl := Option.some.inj hstep
    exact le_rfl
  | deleteLogBatchesUpTo | setSpanProcessingCursor | deleteTransactionBatchesUpTo =>
    obtain rfl := Option.some.inj (Option.ite_none_right_eq_some.mp hstep).2
    exact le_rfl
  | restart =>
    obtain rfl := Option.some.inj hstep
    obtain ⟨floor, -, hrestart⟩ := s.writer.restart_eq
    rw [hrestart]
    exact le_rfl

/-- A Project's rows of batches up to an id. -/
def rowsUpTo (s : System L T) (project : ProjectID) (c : UUID) : List (LogRow L) :=
  s.table.filter fun row => row.project = project ∧ row.batch ≤ c

/-- Up to the cursor, the table holds the rows of every batch written. -/
theorem rowsUpTo_eq {s : System L T} (hinv : LogInv transform s) (project : ProjectID) (c : UUID)
    (hc : c ≤ s.cursor project) :
    rowsUpTo s project c =
      (SortedHistory.upTo Batch.id (s.historyOf project) c).flatMap (batchRows transform project) := by
  have hledger := (hinv.view project).ledger
  have hfrontier : c ≤ (s.view project).ledger.frontier := hc.trans hledger.cursor_le_frontier
  have hstored : (s.view project).stored = (SortedHistory.upTo Batch.id (s.historyOf project)
      (s.view project).ledger.frontier).flatMap (batchRows transform project) := hledger.stored
  have hrows : rowsUpTo s project c =
      (s.view project).stored.filter fun row => row.batch ≤ c := by
    rw [rowsUpTo, System.view, List.filter_filter]
    exact List.filter_congr fun row _ => by rw [Bool.decide_and, Bool.and_comm]
  rw [hrows, hstored, Ledger.filter_flatMap_owner_le Batch.id _ (batch_of_mem_batchRows _ _),
    upTo_upTo hfrontier]

/-- A step leaves what is behind the cursor, and moves no cursor back. -/
theorem step_rowsUpTo {s t : System L T} {a : Action L T} (hinv : LogInv transform s)
    (hids : s.idsIncrease a) (hstep : s.step transform a = some t) (project : ProjectID) (c : UUID)
    (hc : c ≤ s.cursor project) :
    c ≤ t.cursor project ∧ rowsUpTo t project c = rowsUpTo s project c := by
  have hinv' := hinv.step hids hstep
  have hforward : s.cursor project ≤ t.cursor project := by
    rcases hinv.pebble_step hstep with heq | ⟨b, hb, _⟩
    · rw [System.cursor, System.cursor, heq]
    · exact cursor_le_of_pebble_step hb project
  have hhistory : SortedHistory.upTo Batch.id (t.historyOf project) c =
      SortedHistory.upTo Batch.id (s.historyOf project) c := by
    rcases System.step_history hstep with heq | ⟨other, logs, heq, -⟩
    · rw [System.historyOf, System.historyOf, heq]
    · by_cases hother : other = project
      · have happend : t.historyOf project =
            s.historyOf project ++ [⟨t.pebble.writer.logBatchFloor, logs⟩] := by
          simp [System.historyOf, heq, List.filter_append, hother]
        have hincreasing := (hinv'.view project).ledger.increasing
        have hpos := (hinv'.view project).pos
        change Increasing Batch.id (t.historyOf project) at hincreasing
        change ∀ batch ∈ t.historyOf project, UUID.Nil < batch.id at hpos
        rw [happend] at hincreasing hpos ⊢
        refine upTo_append_of_lt (hc.trans_lt ?_)
        exact (hinv.view project).lt_of_forall_lt (hpos _ (by simp)) fun batch hbatch =>
          (List.pairwise_append.mp hincreasing).2.2 batch hbatch _ (by simp)
      · simp [System.historyOf, heq, List.filter_append, hother]
  refine ⟨hc.trans hforward, ?_⟩
  rw [rowsUpTo_eq hinv project c hc, rowsUpTo_eq hinv' project c (hc.trans hforward), hhistory]

end Behind

namespace MatchMonitor

variable (m : MatchMonitor L)

/-- Any two Logs are in order one way. -/
theorem newerFirst_total (a b : L) : m.newerFirst a b ∨ m.newerFirst b a := by
  rcases lt_trichotomy (m.time a) (m.time b) with hlt | heq | hgt
  · exact Or.inr (Or.inl hlt)
  · rcases le_total (m.id a) (m.id b) with hle | hle
    · exact Or.inr (Or.inr ⟨heq.symm, hle⟩)
    · exact Or.inl (Or.inr ⟨heq, hle⟩)
  · exact Or.inl (Or.inl hgt)

/-- The order of Logs is transitive. -/
theorem newerFirst_trans (a b c : L) (hab : m.newerFirst a b) (hbc : m.newerFirst b c) :
    m.newerFirst a c := by
  rcases hab with hab | ⟨htab, hab⟩ <;> rcases hbc with hbc | ⟨htbc, hbc⟩
  · exact Or.inl (hbc.trans hab)
  · exact Or.inl (htbc ▸ hab)
  · exact Or.inl (htab ▸ hbc)
  · exact Or.inr ⟨htab.trans htbc, hbc.trans hab⟩

/-- The Logs a run's window holds that pass at its clock, in the logs table and the old files. -/
def counted (s : MatchSystem L T) (now : ℤ) (after cursor : UUID) : List L :=
  m.ingested now after cursor s.system.table ++ m.ingested now after cursor s.old

/-- A window's Logs are among the rows up to its end. -/
theorem ingested_eq_rowsUpTo (s : System L T) (now : ℤ) (after cursor : UUID) :
    m.ingested now after cursor s.table =
      m.ingested now after cursor (rowsUpTo s m.project cursor) := by
  rw [ingested, ingested, rowsUpTo, List.filter_filter]
  refine congrArg _ (List.filter_congr fun row _ => ?_)
  by_cases hproject : row.project = m.project <;> by_cases hle : row.batch ≤ cursor <;>
    simp [hproject, hle]

/-- A window behind the cursor holds the same Logs ever after. -/
theorem counted_step {transform : ProjectID → UUID → L → Option L} {s : MatchSystem L T}
    {system : System L T} {a : Action L T} (hinv : LogInv transform s.system)
    (hids : s.system.idsIncrease a) (hstep : s.system.step transform a = some system) (now : ℤ)
    (after cursor : UUID) (hcursor : cursor ≤ s.system.cursor m.project) :
    m.counted { s with system } now after cursor = m.counted s now after cursor := by
  obtain ⟨-, hrows⟩ := step_rowsUpTo hinv hids hstep m.project cursor hcursor
  simp only [counted, m.ingested_eq_rowsUpTo system, m.ingested_eq_rowsUpTo s.system, hrows]

/-- A run answers for its window: its total counts the Logs that passed, and its Logs are the
newest of them. -/
def Answers (s : MatchSystem L T) (run : MatchRun L) : Prop :=
  run.total = (m.counted s run.now run.after run.cursor).length ∧
    IsTop m.newerFirst m.limit (m.counted s run.now run.after run.cursor) run.logs

/-- The newest Logs of the table and of the old files, merged, are the newest of both. -/
theorem mergeTake_newest_isTop (s : MatchSystem L T) (now : ℤ) (after cursor : UUID) :
    IsTop m.newerFirst m.limit (m.counted s now after cursor)
      (mergeTake m.newerFirst (m.newest (m.ingested now after cursor s.system.table))
        (m.newest (m.ingested now after cursor s.old)) m.limit) :=
  mergeTake_sorted_isTop m.newerFirst m.newerFirst_total m.newerFirst_trans _ _ m.limit

/-- What reading the Logs leaves: an answer for the window, or its newest Logs with the old files'
count. -/
theorem readLogs_spec (s : MatchSystem L T) (now : ℤ) (after cursor : UUID) :
    (∃ run, m.readLogs s now after cursor = .answered run ∧ run.after = after ∧
      run.cursor = cursor ∧ m.Answers s run) ∨
    ∃ logs, m.readLogs s now after cursor =
        .counting now after cursor logs (m.ingested now after cursor s.old).length ∧
      IsTop m.newerFirst m.limit (m.counted s now after cursor) logs := by
  have hnewest : (m.newest (m.ingested now after cursor s.old)).length =
      min m.limit (m.ingested now after cursor s.old).length := by
    rw [newest, List.length_take, List.length_insertionSort]
  have hold : (if (m.newest (m.ingested now after cursor s.old)).length < m.limit then
      (m.newest (m.ingested now after cursor s.old)).length
      else (m.ingested now after cursor s.old).length) =
      (m.ingested now after cursor s.old).length := by
    split
    · omega
    · rfl
  have hlogs : (if 0 < m.limit then
      mergeTake m.newerFirst (m.newest (m.ingested now after cursor s.system.table))
        (m.newest (m.ingested now after cursor s.old)) m.limit else []) =
      mergeTake m.newerFirst (m.newest (m.ingested now after cursor s.system.table))
        (m.newest (m.ingested now after cursor s.old)) m.limit := by
    split
    · rfl
    · rename_i hzero
      have hlimit : m.limit = 0 := by omega
      simp [hlimit, mergeTake]
  have htop := m.mergeTake_newest_isTop s now after cursor
  rw [readLogs]
  simp only [hold, hlogs]
  split
  · rename_i hfew
    refine Or.inl ⟨_, rfl, rfl, rfl, ?_, htop⟩
    obtain ⟨-, -, -, hlength⟩ := htop
    change List.length _ = (m.counted s now after cursor).length
    omega
  · exact Or.inr ⟨_, rfl, htop⟩

/-- The windows of recorded runs follow one another from one cursor to another. -/
def Chained : UUID → List (MatchRun L) → UUID → Prop
  | first, [], last => first = last
  | first, run :: rest, last => run.after = first ∧ first ≤ run.cursor ∧ Chained run.cursor rest last

/-- What holds of a run in each phase. -/
def PhaseInv (s : MatchSystem L T) : RunPhase L → Prop
  | .none => True
  | .arming cursor => s.ingestCursor = none ∧ cursor ≤ s.system.cursor m.project
  | .reading _ after cursor => s.ingestCursor = some after ∧ after ≤ cursor ∧
      cursor ≤ s.system.cursor m.project
  | .counting now after cursor logs oldTotal => s.ingestCursor = some after ∧ after ≤ cursor ∧
      cursor ≤ s.system.cursor m.project ∧
      oldTotal = (m.ingested now after cursor s.old).length ∧
      IsTop m.newerFirst m.limit (m.counted s now after cursor) logs
  | .answered run => s.ingestCursor = some run.after ∧ run.after ≤ run.cursor ∧
      run.cursor ≤ s.system.cursor m.project ∧ m.Answers s run

/-- What ties the runs to Log processing. -/
structure Inv (transform : ProjectID → UUID → L → Option L) (s : MatchSystem L T) : Prop where
  log : LogInv transform s.system
  /-- A Monitor without a cursor has recorded nothing. -/
  unarmed : s.ingestCursor = none → s.armed = none ∧ s.runs = []
  /-- The recorded windows lead from where the Monitor was armed to its cursor. -/
  chained : ∀ cursor, s.ingestCursor = some cursor → cursor ≤ s.system.cursor m.project ∧
    ∃ armed, s.armed = some armed ∧ Chained armed s.runs cursor
  /-- Every recorded run answers for its window, still. -/
  answers : ∀ run ∈ s.runs, run.cursor ≤ s.system.cursor m.project ∧ m.Answers s run
  phase : m.PhaseInv s s.phase

variable {m}

/-- Recording one more run chains it on. -/
theorem Chained.append {first last : UUID} {runs : List (MatchRun L)} (run : MatchRun L)
    (hchain : Chained first runs last) (hafter : run.after = last) (hle : last ≤ run.cursor) :
    Chained first (runs ++ [run]) run.cursor := by
  induction runs generalizing first with
  | nil =>
    obtain rfl : first = last := hchain
    exact ⟨hafter, hle, rfl⟩
  | cons head rest ih => exact ⟨hchain.1, hchain.2.1, ih hchain.2.2⟩

/-- A chain of runs ends at its start or after it. -/
theorem Chained.le {first last : UUID} {runs : List (MatchRun L)}
    (hchain : Chained first runs last) : first ≤ last := by
  induction runs generalizing first with
  | nil =>
    obtain rfl : first = last := hchain
    exact le_rfl
  | cons head rest ih => exact hchain.2.1.trans (ih hchain.2.2)

/-- Nothing is recorded before the first write. -/
theorem Inv.init (transform : ProjectID → UUID → L → Option L) (old : List (LogRow L)) :
    m.Inv transform (MatchSystem.init old : MatchSystem L T) where
  log := LogInv.init transform
  unarmed := fun _ => ⟨rfl, rfl⟩
  chained := by simp [MatchSystem.init]
  answers := by simp [MatchSystem.init]
  phase := trivial

/-- A step of Log processing leaves every window behind the cursor. -/
theorem Inv.system {transform : ProjectID → UUID → L → Option L} {s : MatchSystem L T}
    {system : System L T} {a : Action L T} (hinv : m.Inv transform s)
    (hids : s.system.idsIncrease a) (hstep : s.system.step transform a = some system) :
    m.Inv transform { s with system } := by
  have hforward : ∀ c, c ≤ s.system.cursor m.project → c ≤ system.cursor m.project :=
    fun c hc => (step_rowsUpTo hinv.log hids hstep m.project c hc).1
  have hcounted : ∀ now after cursor, cursor ≤ s.system.cursor m.project →
      m.counted { s with system } now after cursor = m.counted s now after cursor :=
    fun now after cursor hcursor => m.counted_step hinv.log hids hstep now after cursor hcursor
  have hanswers : ∀ run : MatchRun L, run.cursor ≤ s.system.cursor m.project → m.Answers s run →
      m.Answers { s with system } run := by
    intro run hcursor hrun
    rw [Answers, hcounted _ _ _ hcursor]
    exact hrun
  refine ⟨hinv.log.step hids hstep, hinv.unarmed, fun cursor hcursor => ?_, fun run hrun => ?_, ?_⟩
  · obtain ⟨hle, hchain⟩ := hinv.chained cursor hcursor
    exact ⟨hforward cursor hle, hchain⟩
  · obtain ⟨hle, hrun⟩ := hinv.answers run hrun
    exact ⟨hforward _ hle, hanswers run hle hrun⟩
  · have hphase := hinv.phase
    change m.PhaseInv { s with system } s.phase
    cases hcase : s.phase with
    | none => trivial
    | arming cursor =>
      rw [hcase] at hphase
      exact ⟨hphase.1, hforward _ hphase.2⟩
    | reading now after cursor =>
      rw [hcase] at hphase
      exact ⟨hphase.1, hphase.2.1, hforward _ hphase.2.2⟩
    | counting now after cursor logs oldTotal =>
      rw [hcase] at hphase
      obtain ⟨hingest, hle, hcursor, hold, htop⟩ := hphase
      rw [← hcounted now after cursor hcursor] at htop
      exact ⟨hingest, hle, hforward _ hcursor, hold, htop⟩
    | answered run =>
      rw [hcase] at hphase
      obtain ⟨hingest, hle, hcursor, hrun⟩ := hphase
      exact ⟨hingest, hle, hforward _ hcursor, hanswers run hcursor hrun⟩

/-- A change of the phase alone keeps the invariant when the new phase's part holds. -/
theorem Inv.setPhase {transform : ProjectID → UUID → L → Option L} {s : MatchSystem L T}
    (hinv : m.Inv transform s) (phase : RunPhase L) (hphase : m.PhaseInv s phase) :
    m.Inv transform { s with phase } := by
  refine ⟨hinv.log, hinv.unarmed, hinv.chained, hinv.answers, ?_⟩
  cases phase <;> exact hphase

/-- Starting a run keeps the invariant: the cursor it reads is not behind the Monitor's. -/
theorem Inv.start {transform : ProjectID → UUID → L → Option L} {s : MatchSystem L T}
    (hinv : m.Inv transform s) (now : ℤ) : m.PhaseInv s (m.start s now) := by
  rw [MatchMonitor.start]
  cases hingest : s.ingestCursor with
  | none => exact ⟨hingest, le_rfl⟩
  | some after =>
    obtain ⟨hle, -⟩ := hinv.chained after hingest
    dsimp only
    split
    · rename_i hnone
      have hempty : m.counted s now after (s.system.cursor m.project) = [] := by
        have hwindow : ∀ rows : List (LogRow L),
            m.ingested now after (s.system.cursor m.project) rows = [] := by
          intro rows
          refine List.map_eq_nil_iff.mpr (List.filter_eq_nil_iff.mpr fun row _ => ?_)
          simp only [decide_eq_true_eq, not_and]
          intro _ hafter hbefore
          exact absurd (hafter.trans_le (hbefore.trans hnone)) (lt_irrefl _)
        rw [counted, hwindow, hwindow, List.append_nil]
      refine ⟨hingest, hle, le_rfl, ?_, ?_⟩
      · rw [hempty]
        rfl
      · rw [hempty]
        exact ⟨[], List.Perm.refl _, List.Pairwise.nil, by simp⟩
    · exact ⟨hingest, hle, le_rfl⟩

/-- A recorded answer still answers: the Logs it lists are no more than it asked for. -/
theorem Answers.recorded {s : MatchSystem L T} {run : MatchRun L} (hrun : m.Answers s run) :
    m.Answers s { run with
      logs := run.logs.take matchedLogs
      total := max run.total (run.logs.take matchedLogs).length } := by
  obtain ⟨htotal, htop⟩ := hrun
  obtain ⟨rest, hperm, hsorted, hlength⟩ := htop
  have hlimit : m.limit ≤ matchedLogs := by
    rw [limit]
    split
    · exact min_le_left _ _
    · exact le_rfl
  have htake : run.logs.take matchedLogs = run.logs := List.take_of_length_le (by omega)
  refine ⟨?_, ?_⟩
  · change max run.total (run.logs.take matchedLogs).length = _
    rw [htake, max_eq_left (by omega)]
    exact htotal
  · change IsTop m.newerFirst m.limit _ (run.logs.take matchedLogs)
    rw [htake]
    exact ⟨rest, hperm, hsorted, hlength⟩

/-- Recording an answer keeps the invariant. -/
theorem Inv.record {transform : ProjectID → UUID → L → Option L} {s : MatchSystem L T}
    (hinv : m.Inv transform s) (run : MatchRun L) (hphase : m.PhaseInv s (.answered run)) :
    m.Inv transform (s.record run) := by
  obtain ⟨hingest, hle, hcursor, hrun⟩ := hphase
  obtain ⟨-, armed, harmed, hchain⟩ := hinv.chained run.after hingest
  refine ⟨hinv.log, by simp [MatchSystem.record], fun cursor hsome => ?_, fun other hother => ?_,
    trivial⟩
  · obtain rfl := Option.some.inj hsome
    exact ⟨hcursor, armed, harmed, hchain.append _ rfl hle⟩
  · rcases List.mem_append.mp hother with hother | hother
    · exact hinv.answers other hother
    · obtain rfl := List.mem_singleton.mp hother
      exact ⟨hcursor, hrun.recorded⟩

/-- Every step keeps the invariant. -/
theorem Inv.step {transform : ProjectID → UUID → L → Option L} {s t : MatchSystem L T}
    {a : MatchAction L T} (hinv : m.Inv transform s) (hids : s.idsIncrease a)
    (hstep : m.step transform s a = some t) : m.Inv transform t := by
  have hphase := hinv.phase
  cases a with
  | system action =>
    obtain ⟨system, hsystem, rfl⟩ := Option.map_eq_some_iff.mp hstep
    exact hinv.system hids hsystem
  | start now =>
    rw [MatchMonitor.step] at hstep
    split at hstep
    · obtain rfl := Option.some.inj hstep
      exact hinv.setPhase _ (hinv.start now)
    · simp at hstep
  | readLogs =>
    rw [MatchMonitor.step] at hstep
    split at hstep
    · rename_i now after cursor hcase
      rw [hcase] at hphase
      obtain ⟨hingest, hle, hcursor⟩ := hphase
      obtain rfl := Option.some.inj hstep
      refine hinv.setPhase _ ?_
      rcases m.readLogs_spec s now after cursor with ⟨run, heq, rfl, rfl, hrun⟩ | ⟨logs, heq, htop⟩
      · rw [heq]
        exact ⟨hingest, hle, hcursor, hrun⟩
      · rw [heq]
        exact ⟨hingest, hle, hcursor, rfl, htop⟩
    · simp at hstep
  | countLogs =>
    rw [MatchMonitor.step] at hstep
    split at hstep
    · rename_i now after cursor logs oldTotal hcase
      rw [hcase] at hphase
      obtain ⟨hingest, hle, hcursor, rfl, htop⟩ := hphase
      obtain rfl := Option.some.inj hstep
      refine hinv.setPhase _ ⟨hingest, hle, hcursor, ?_, htop⟩
      exact List.length_append.symm
    · simp at hstep
  | record =>
    rw [MatchMonitor.step] at hstep
    split at hstep
    · rename_i cursor hcase
      rw [hcase] at hphase
      obtain ⟨hingest, hcursor⟩ := hphase
      obtain ⟨-, hruns⟩ := hinv.unarmed hingest
      obtain rfl := Option.some.inj hstep
      refine ⟨hinv.log, by simp, fun other hother => ?_, ?_, trivial⟩
      · obtain rfl := Option.some.inj hother
        exact ⟨hcursor, cursor, rfl, by rw [hruns]; rfl⟩
      · simp [hruns]
    · rename_i run hcase
      rw [hcase] at hphase
      obtain rfl := Option.some.inj hstep
      exact hinv.record run hphase
    · simp at hstep
  | fail =>
    obtain rfl := Option.some.inj hstep
    exact hinv.setPhase .none trivial

end MatchMonitor

/-- The run's window holds a batch. -/
def MatchRun.reads (run : MatchRun L) (batch : UUID) : Bool :=
  run.after < batch ∧ batch ≤ run.cursor

/-- Chained windows hold each batch between their ends once, and no other. -/
theorem MatchMonitor.Chained.length_filter_reads {first last : UUID} {runs : List (MatchRun L)}
    (hchain : MatchMonitor.Chained first runs last) (batch : UUID) :
    (runs.filter fun run => run.reads batch).length =
      if first < batch ∧ batch ≤ last then 1 else 0 := by
  induction runs generalizing first with
  | nil =>
    obtain rfl : first = last := hchain
    rw [if_neg fun h => absurd h.1 h.2.not_gt]
    rfl
  | cons run rest ih =>
    obtain ⟨rfl, hle, hrest⟩ := hchain
    have hlast := hrest.le
    rw [List.filter_cons]
    by_cases hread : run.after < batch ∧ batch ≤ run.cursor
    · have hnone : ¬ (run.cursor < batch ∧ batch ≤ last) := fun h => absurd h.1 hread.2.not_gt
      have hall : run.after < batch ∧ batch ≤ last := ⟨hread.1, hread.2.trans hlast⟩
      have htrue : run.reads batch = true := decide_eq_true hread
      rw [if_pos htrue, List.length_cons, ih hrest, if_neg hnone, if_pos hall]
    · have hiff : (run.cursor < batch ∧ batch ≤ last) ↔ (run.after < batch ∧ batch ≤ last) := by
        constructor
        · rintro ⟨hcursor, hbatch⟩
          exact ⟨hle.trans_lt hcursor, hbatch⟩
        · rintro ⟨hafter, hbatch⟩
          exact ⟨not_le.mp fun h => hread ⟨hafter, h⟩, hbatch⟩
      have hfalse : ¬ run.reads batch = true := by simpa [MatchRun.reads] using hread
      rw [if_neg hfalse, ih hrest, if_congr hiff rfl rfl]

/-- Recorded cursors lie between the ends of their chain. -/
theorem MatchMonitor.Chained.cursor_le {first last : UUID} {runs : List (MatchRun L)}
    (hchain : MatchMonitor.Chained first runs last) (run : MatchRun L) (hrun : run ∈ runs) :
    run.cursor ≤ last := by
  induction runs generalizing first with
  | nil => simp at hrun
  | cons head rest ih =>
    rcases List.mem_cons.mp hrun with rfl | hrun
    · exact hchain.2.2.le
    · exact ih hchain.2.2 hrun

/-- The Monitor's recorded runs read each Log ingested since it was armed once. -/
structure ReadOnce (m : MatchMonitor L) (transform : ProjectID → UUID → L → Option L)
    (s : MatchSystem L T) : Prop where
  /-- A run's total counts the Logs of its window that passed its filter. -/
  total : ∀ run ∈ s.runs, run.total = (m.counted s run.now run.after run.cursor).length
  /-- A run's Logs are the newest of them, as many as it asked for. -/
  newest : ∀ run ∈ s.runs,
    IsTop m.newerFirst m.limit (m.counted s run.now run.after run.cursor) run.logs
  /-- Every batch a run's cursor has reached is stored, each of its Logs once. -/
  stored : ∀ run ∈ s.runs, ∀ batch ∈ s.system.historyOf m.project, batch.id ≤ run.cursor →
    s.system.rowsOfBatch m.project batch.id = batchRows transform m.project batch
  /-- A batch ingested since the Monitor was armed, once a run's cursor has reached it, is in one
  run's window. -/
  once : ∀ armed, s.armed = some armed → ∀ batch, armed < batch →
    (∃ run ∈ s.runs, batch ≤ run.cursor) →
    (s.runs.filter fun run => run.reads batch).length = 1
  /-- No batch is in two windows. -/
  notTwice : ∀ batch, (s.runs.filter fun run => run.reads batch).length ≤ 1

/-- Over every interleaving of Log processing and Match runs, with batch ids that increase within
each Project, the recorded runs read each Log once. -/
theorem match_readOnce (m : MatchMonitor L) (transform : ProjectID → UUID → L → Option L)
    (old : List (LogRow L)) (s : MatchSystem L T)
    (hrun : Reaches (m.step transform) MatchSystem.idsIncrease (MatchSystem.init old) s) :
    ReadOnce m transform s := by
  have hinv : m.Inv transform s := hrun.invariant (MatchMonitor.Inv.init transform old)
    fun _ _ _ hinv hids hstep => hinv.step hids hstep
  have hfilter : ∀ batch, (s.runs.filter fun run => run.reads batch).length ≤ 1 ∧
      ∀ armed, s.armed = some armed → armed < batch → (∃ run ∈ s.runs, batch ≤ run.cursor) →
        (s.runs.filter fun run => run.reads batch).length = 1 := by
    intro batch
    cases hingest : s.ingestCursor with
    | none =>
      obtain ⟨-, hruns⟩ := hinv.unarmed hingest
      simp [hruns]
    | some cursor =>
      obtain ⟨-, armed, harmed, hchain⟩ := hinv.chained cursor hingest
      rw [hchain.length_filter_reads batch]
      refine ⟨by split <;> omega, fun other hother hlt hreached => ?_⟩
      obtain rfl := Option.some.inj (harmed.symm.trans hother)
      obtain ⟨run, hrun, hle⟩ := hreached
      exact if_pos ⟨hlt, hle.trans (hchain.cursor_le run hrun)⟩
  refine ⟨fun run hrun => (hinv.answers run hrun).2.1, fun run hrun => (hinv.answers run hrun).2.2,
    fun run hrun batch hbatch hle => ?_, fun armed harmed batch => (hfilter batch).2 armed harmed,
    fun batch => (hfilter batch).1⟩
  exact hinv.log.storedOnce.cursor m.project batch hbatch (hle.trans (hinv.answers run hrun).1)

instance (s : MatchSystem L T) (a : MatchAction L T) : Decidable (s.idsIncrease a) :=
  match a with
  | .system (.writeLogBatch project _ receivedAt random) =>
    inferInstanceAs (Decidable (∀ batch ∈ s.system.historyOf project, batch.id <
      PebbleWriter.drawBatchID s.system.pebble.writer.logBatchFloor random receivedAt))
  | .system (.writeTransactionBatch ..) | .system (.recordSpanInsert ..)
  | .system (.setSpanProcessingCursor ..) | .system (.deleteTransactionBatchesUpTo ..)
  | .system .stopWrites | .system (.read ..) | .system (.record ..) | .system (.transform ..)
  | .system (.insert ..) | .system (.moveCursor ..) | .system (.deleteBatches ..)
  | .system .crash | .start _ | .readLogs | .countLogs | .record | .fail => isTrue trivial

/-- A Monitor that lists one Log of those past five. -/
def pastFive : MatchMonitor ℕ := ⟨7, fun _ log => 5 < log, some 1, fun log => log, fun _ => UUID.Nil⟩

/-- A run whose Logs are stored, with a crash before the cursor moves, while Match runs read, count
and fail. -/
def crashBetweenRuns : List (MatchAction ℕ ℕ) :=
  [.start 0, .record, .system (.writeLogBatch 7 [6, 1, 8] 1000 UUID.Nil), .system (.read 7),
    .system (.record .done), .system (.transform true), .system (.insert .done), .start 1, .record,
    .system .crash, .system (.read 7), .system (.record .done), .system (.transform true),
    .system (.insert .done), .system (.moveCursor .done), .start 2, .readLogs, .fail, .start 3,
    .system (.writeLogBatch 7 [9] 900 UUID.Nil), .readLogs, .system (.deleteBatches .done),
    .countLogs, .record, .system (.read 7), .system (.record .done), .system (.transform true),
    .system (.insert .done), .system (.moveCursor .done), .start 4, .readLogs, .countLogs, .record]

/-- The run that crashes between two runs is one. -/
private theorem crashBetweenRuns_runs : (Transition.run (pastFive.step fun _ _ log => some log)
    MatchSystem.idsIncrease (MatchSystem.init []) crashBetweenRuns).isSome = true := by
  decide +kernel

/-- Its three recorded runs count no Log, then two, then one. -/
theorem match_readOnce_crashBetweenRuns : ∃ s : MatchSystem ℕ ℕ,
    Transition.run (pastFive.step fun _ _ log => some log) MatchSystem.idsIncrease
      (MatchSystem.init []) crashBetweenRuns = some s ∧
      s.runs.map (fun run => (run.total, run.logs)) = [(0, []), (2, [8]), (1, [9])] ∧
      ReadOnce pastFive (fun _ _ log => some log) s := by
  have hrun := (Option.some_get crashBetweenRuns_runs).symm
  exact ⟨_, hrun, by decide +kernel, match_readOnce _ _ _ _ (reaches_of_run hrun)⟩

end SolidTrace.Monitors
