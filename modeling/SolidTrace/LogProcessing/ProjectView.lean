import SolidTrace.LogProcessing.StoreLogs

/-!
# One Project's Log processing as a ledger

What Log processing does for a Project depends on the Project's own batches, cursor, recorded
range, tokens and rows: its view. Read as a ledger, the view keeps the ledger's invariant, and the
batches past the cursor are still in Pebble. A recorded range is then read again just as it was
read first, because batches written meanwhile come after it.
-/

namespace SolidTrace.LogProcessing

open Storage SortedHistory WeightedPrefix

variable {L T : Type*}

/-- What Log processing sees and stores of one Project. `pending` is its batches past the cursor
in Pebble. -/
@[ext] structure View (L : Type*) where
  history : List (Batch L)
  pending : List (Batch L)
  cursor : UUID
  recorded : UUID
  recording : Option (LogRange L)
  tokens : List (UUID × UUID)
  stored : List (LogRow L)

/-- A Project's view of the system. -/
def System.view (s : System L T) (project : ProjectID) : View L where
  history := s.historyOf project
  pending := toBatches (s.pebble.writer.logBatches.range (keysAfter project (s.cursor project)))
  cursor := s.cursor project
  recorded := s.recorded project
  recording := s.recording project
  tokens := (s.tokens.filter fun token => token.project = project).map fun token =>
    (token.after, token.upTo)
  stored := s.table.filter fun row => row.project = project

/-- The rows of a batch as its Project's Log transform returns it. -/
def batchRows (transform : ProjectID → UUID → L → Option L) (project : ProjectID) (batch : Batch L) :
    List (LogRow L) :=
  (batch.items.filterMap (transform project batch.id)).map fun log => ⟨project, batch.id, log⟩

/-- A row names its batch. -/
theorem batch_of_mem_batchRows (transform : ProjectID → UUID → L → Option L) (project : ProjectID)
    (batch : Batch L) (row : LogRow L) (hrow : row ∈ batchRows transform project batch) :
    row.batch = batch.id := by
  obtain ⟨log, _, rfl⟩ := List.mem_map.mp hrow
  rfl

/-- The rows that are inserted are those of each batch, transformed. -/
theorem logRows_applyTransform (transform : ProjectID → UUID → L → Option L) (project : ProjectID)
    (batches : List (Batch L)) :
    logRows project (applyTransform transform project batches) =
      batches.flatMap (batchRows transform project) := by
  simp only [logRows, applyTransform, List.flatMap_map]
  rfl

/-- A range as `storeLogs` reads one: it stops once it holds enough Logs, at its last batch. -/
structure ReadRange (history : List (Batch L)) (range : LogRange L) : Prop where
  isRange : Ledger.IsRange Batch.id history range
  whole : takeWeight (fun batch => batch.items.length) maxLogsPerCommit 0 range.items = range.items
  last : range.items.getLast?.map Batch.id = some range.upTo

/-- A batch past the range leaves the range as it was read. -/
theorem ReadRange.append {history : List (Batch L)} {range : LogRange L}
    (hread : ReadRange history range) (batch : Batch L) (hbatch : range.upTo < batch.id) :
    ReadRange (history ++ [batch]) range where
  isRange := ⟨hread.isRange.nonempty,
    hread.isRange.items.trans (between_append_of_lt hbatch).symm⟩
  whole := hread.whole
  last := hread.last

/-- A range ends at a batch of the history. -/
theorem ReadRange.exists_upTo {history : List (Batch L)} {range : LogRange L}
    (hread : ReadRange history range) : ∃ batch ∈ history, batch.id = range.upTo := by
  obtain ⟨batch, hlast, hid⟩ := Option.map_eq_some_iff.mp hread.last
  have hmem := List.mem_of_getLast? hlast
  rw [hread.isRange.items] at hmem
  exact ⟨batch, (mem_between.mp hmem).1, hid⟩

namespace View

/-- The view as a ledger: a range is recorded while its last batch is past the cursor. -/
def ledger (v : View L) : Ledger.State (Batch L) UUID (LogRow L) where
  history := v.history
  cursor := v.cursor
  recorded := if v.cursor < v.recorded then v.recording else none
  tokens := v.tokens
  stored := v.stored

/-- What holds of every Project's view. -/
structure Inv (transform : ProjectID → UUID → L → Option L) (project : ProjectID) (v : View L) : Prop where
  ledger : Ledger.State.Inv Batch.id (batchRows transform project) v.ledger
  /-- No batch has the id `uuid.Nil`, from which everything is read. -/
  pos : ∀ batch ∈ v.history, UUID.Nil < batch.id
  /-- The cursor is at a batch, or at the start. -/
  cursor_mem : v.cursor = UUID.Nil ∨ ∃ batch ∈ v.history, batch.id = v.cursor
  /-- Every batch past the cursor is still in Pebble. -/
  pending : v.pending = past Batch.id v.history v.cursor
  /-- The recorded range past the cursor is the one an attempt read. -/
  recorded : v.cursor < v.recorded → ∃ range, v.recording = some range ∧
    range.after = v.cursor ∧ range.upTo = v.recorded ∧ ReadRange v.history range

/-- A written batch joins the history and what is pending. -/
def append (v : View L) (batch : Batch L) : View L :=
  { v with history := v.history ++ [batch], pending := v.pending ++ [batch] }

/-- A range is recorded. -/
def record (v : View L) (range : LogRange L) : View L :=
  { v with recorded := range.upTo, recording := some range }

/-- A range is inserted. -/
def insert (transform : ProjectID → UUID → L → Option L) (project : ProjectID) (v : View L)
    (range : LogRange L) : View L :=
  let inserted := v.ledger.insert (batchRows transform project) range
  { v with tokens := inserted.tokens, stored := inserted.stored }

/-- The cursor moves past a range. -/
def move (v : View L) (range : LogRange L) : View L :=
  { v with cursor := range.upTo, pending := past Batch.id v.pending range.upTo }

variable {transform : ProjectID → UUID → L → Option L} {project : ProjectID} {v : View L}

/-- While the recorded id is past the cursor, the ledger has its range recorded. -/
theorem ledger_recorded {range : LogRange L} (hlt : v.cursor < v.recorded)
    (hrecording : v.recording = some range) : v.ledger.recorded = some range := by
  simp [ledger, hlt, hrecording]

/-- Inserting a range stores it in the ledger. -/
theorem ledger_insert (range : LogRange L) : (v.insert transform project range).ledger =
    v.ledger.insert (batchRows transform project) range := by
  simp only [View.insert, Ledger.State.insert]
  split <;> rfl

/-- An id past every batch of the history is past the cursor, and past the recorded range. -/
theorem Inv.lt_of_forall_lt (hinv : Inv transform project v) {id : UUID} (hnil : UUID.Nil < id)
    (hid : ∀ batch ∈ v.history, batch.id < id) : v.cursor < id := by
  rcases hinv.cursor_mem with hcursor | ⟨batch, hbatch, hcursor⟩
  · exact hcursor ▸ hnil
  · exact hcursor ▸ hid batch hbatch

/-- A batch at the end of the history keeps the invariant. -/
theorem Inv.append (hinv : Inv transform project v) (batch : Batch L) (hnil : UUID.Nil < batch.id)
    (hbatch : ∀ earlier ∈ v.history, earlier.id < batch.id) :
    Inv transform project (v.append batch) := by
  have hcursor := hinv.lt_of_forall_lt hnil hbatch
  have hupTo : ∀ range, ReadRange v.history range → range.upTo < batch.id := by
    intro range hread
    obtain ⟨last, hlast, hid⟩ := hread.exists_upTo
    exact hid ▸ hbatch last hlast
  refine ⟨?_, ?_, ?_, ?_, ?_⟩
  · refine hinv.ledger.append batch hbatch hcursor fun range hrec => ?_
    have hlt : v.cursor < v.recorded := by
      by_contra hle
      simp [View.ledger, hle] at hrec
    obtain ⟨other, hother, _, _, hread⟩ := hinv.recorded hlt
    rw [ledger_recorded hlt hother] at hrec
    exact hupTo range (Option.some.inj hrec ▸ hread)
  · intro earlier hearlier
    rcases List.mem_append.mp hearlier with hearlier | hearlier
    · exact hinv.pos earlier hearlier
    · exact (List.mem_singleton.mp hearlier) ▸ hnil
  · refine hinv.cursor_mem.imp_right ?_
    rintro ⟨last, hlast, hid⟩
    exact ⟨last, List.mem_append_left _ hlast, hid⟩
  · change v.pending ++ [batch] = past Batch.id (v.history ++ [batch]) v.cursor
    rw [past_append_of_lt hcursor, hinv.pending]
  · intro hlt
    obtain ⟨range, hrecording, hafter, hupTo', hread⟩ := hinv.recorded hlt
    exact ⟨range, hrecording, hafter, hupTo', hread.append batch (hupTo range hread)⟩

/-- Recording the range that was read keeps the invariant. -/
theorem Inv.record (hinv : Inv transform project v) (range : LogRange L)
    (hafter : range.after = v.cursor) (hread : ReadRange v.history range)
    (hle : v.recorded ≤ v.cursor) : Inv transform project (v.record range) := by
  have hnone : v.ledger.recorded = none := by simp [View.ledger, hle.not_gt]
  have hlt : v.cursor < range.upTo := hafter ▸ hread.isRange.nonempty
  have hledger : (v.record range).ledger = v.ledger.record range := by
    simp [View.record, View.ledger, Ledger.State.record, hlt]
  refine ⟨?_, hinv.pos, hinv.cursor_mem, hinv.pending, fun _ => ⟨range, rfl, hafter, rfl, hread⟩⟩
  rw [hledger]
  exact hinv.ledger.record hnone range hafter hread.isRange

/-- Inserting the recorded range keeps the invariant. -/
theorem Inv.insert (hinv : Inv transform project v) (range : LogRange L)
    (hlt : v.cursor < v.recorded) (hrecording : v.recording = some range) :
    Inv transform project (v.insert transform project range) := by
  refine ⟨?_, hinv.pos, hinv.cursor_mem, hinv.pending, hinv.recorded⟩
  rw [ledger_insert]
  exact hinv.ledger.insert range (ledger_recorded hlt hrecording)

/-- Moving the cursor past the recorded range, once stored, keeps the invariant. -/
theorem Inv.move (hinv : Inv transform project v) (range : LogRange L)
    (hlt : v.cursor < v.recorded) (hrecording : v.recording = some range)
    (hstored : v.ledger.Stored (batchRows transform project) range) :
    Inv transform project (v.move range) := by
  obtain ⟨other, hother, hafter, hupTo, hread⟩ := hinv.recorded hlt
  obtain rfl := Option.some.inj (hrecording.symm.trans hother)
  have hledger : (v.move range).ledger = v.ledger.move range := by
    simp [View.move, View.ledger, Ledger.State.move, hupTo]
  refine ⟨?_, hinv.pos, Or.inr hread.exists_upTo, ?_, ?_⟩
  · rw [hledger]
    exact hinv.ledger.move range (ledger_recorded hlt hrecording) hstored
  · change past Batch.id v.pending range.upTo = past Batch.id v.history range.upTo
    rw [hinv.pending, past_past (hupTo ▸ hlt.le)]
  · intro hpast
    exact absurd hupTo.symm.le (not_le.mpr hpast)

end View

/-- While the recorded id is past the cursor, `storeLogs` reads the range that was recorded, the
same batches between the same ids, whatever was written behind them meanwhile. -/
theorem readAttempt_of_recorded {transform : ProjectID → UUID → L → Option L} (s : System L T)
    (project : ProjectID) (hinv : (s.view project).Inv transform project)
    (hlt : s.cursor project < s.recorded project) :
    ∃ range, s.recording project = some range ∧
      readAttempt s.pebble.writer project = some ⟨project, range, true⟩ := by
  obtain ⟨range, hrecording, hafter, hlast', hread⟩ := hinv.recorded hlt
  have hupTo : range.upTo = s.recorded project := hlast'
  refine ⟨range, hrecording, ?_⟩
  have hitems : range.items = between Batch.id (s.view project).history range.after range.upTo :=
    hread.isRange.items
  have hpending : (s.view project).pending =
      range.items ++ past Batch.id (s.view project).history range.upTo := by
    rw [hinv.pending, hitems, ← hafter]
    exact (between_append_past hinv.ledger.increasing hread.isRange.nonempty.le).symm
  obtain ⟨extra, hextra, hmore⟩ := takeWeight_append (fun batch : Batch L => batch.items.length)
    maxLogsPerCommit 0 range.items (past Batch.id (s.view project).history range.upTo) hread.whole
  have hbatches : s.pebble.writer.logBatchesAfter project (s.cursor project) maxLogsPerCommit =
      range.items ++ extra := by
    rw [← hextra, ← hpending]
    rfl
  have hkept : upTo (range.items ++ extra) (s.recorded project) = range.items := by
    have hfront : ∀ batch ∈ range.items, decide (batch.id ≤ s.recorded project) = true := by
      intro batch hbatch
      rw [hitems] at hbatch
      have hle := (mem_between.mp hbatch).2.2
      rw [hupTo] at hle
      exact decide_eq_true hle
    rw [upTo, List.takeWhile_append_of_pos hfront]
    cases extra with
    | nil => simp
    | cons batch rest =>
      have hpast : s.recorded project < batch.id :=
        hupTo ▸ (mem_past.mp (hmore.subset List.mem_cons_self)).2
      simp [hpast.not_ge]
  obtain ⟨last, hlast, hid⟩ := Option.map_eq_some_iff.mp hread.last
  have hempty : range.items.isEmpty = false := by
    cases hitems' : range.items with
    | nil => simp [hitems'] at hlast
    | cons batch rest => rfl
  rw [readAttempt]
  simp only [show s.pebble.writer.logProcessingCursor project = s.cursor project from rfl,
    show s.pebble.writer.recordedLogInsert project = s.recorded project from rfl, hbatches, hkept,
    hlt, hempty, decide_true, Bool.not_false, Bool.and_true, if_true, hlast, Option.map_some, hid]
  rw [show s.cursor project = range.after from hafter.symm]

/-- Otherwise it reads the next range. -/
theorem readAttempt_of_not_recorded {transform : ProjectID → UUID → L → Option L} (s : System L T)
    (project : ProjectID) (hinv : (s.view project).Inv transform project)
    (hle : s.recorded project ≤ s.cursor project) (attempt : Attempt L)
    (hread : readAttempt s.pebble.writer project = some attempt) :
    attempt.project = project ∧ attempt.again = false ∧
      attempt.range.after = s.cursor project ∧
      ReadRange (s.view project).history attempt.range := by
  rw [readAttempt] at hread
  simp only [show s.pebble.writer.logProcessingCursor project = s.cursor project from rfl,
    show s.pebble.writer.recordedLogInsert project = s.recorded project from rfl,
    hle.not_gt, decide_false, Bool.false_and, Bool.false_eq_true, if_false] at hread
  obtain ⟨last, hlast, rfl⟩ := Option.map_eq_some_iff.mp hread
  refine ⟨rfl, rfl, rfl, ?_⟩
  have hfront : s.pebble.writer.logBatchesAfter project (s.cursor project) maxLogsPerCommit <+:
      past Batch.id (s.view project).history (s.view project).cursor := by
    rw [← hinv.pending]
    exact takeWeight_prefix _ _ _ _
  refine ⟨⟨?_, ?_⟩, ?_, ?_⟩
  · exact (mem_past.mp (hfront.subset (List.mem_of_getLast? hlast))).2
  · exact eq_between_of_prefix hinv.ledger.increasing hfront hlast
  · exact takeWeight_takeWeight _ _ _ _
  · simp [hlast]

end SolidTrace.LogProcessing
