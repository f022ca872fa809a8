import SolidTrace.SpanProcessing.StoreSpans

/-!
# Span processing stores every Span exactly once

For each Project, Span processing is a reader of the Project's Transaction batches with two stores
behind it, spans and trace_index, that each keep their own tokens. Every step of the machine leaves
a Project's reader and its part of each table, or does to them what the reader's and the ledgers'
own operations do. So they keep their invariants over every run in which no write finds the id
floor at its limit, whatever fails and wherever the process crashes.
-/

namespace SolidTrace.SpanProcessing

open Storage SortedStore SortedHistory Transition
open LogProcessing (Token Outcome)

variable {L R : Type*}

/-- The Spans of a batch, of the Transactions that can be read. -/
def spansOfBatch (lib : Library) (batch : Batch Transaction) : List Span :=
  (batch.items.filterMap fun transaction => (spansOf lib transaction).toOption).flatten

/-- The rows in trace_index of a batch, one for each Transaction that can be read: its first row,
the segment. -/
def segmentsOfBatch (lib : Library) (batch : Batch Transaction) : List TraceIndex :=
  (batch.items.filterMap fun transaction => (spansOf lib transaction).toOption).filterMap
    fun spans => spans.head?.map fun span =>
      ⟨span.traceID, span.start, span.finish, span.transaction⟩

/-- A batch's rows of a table. -/
def batchRows (columns : Batch Transaction → List R) (project : ProjectID)
    (batch : Batch Transaction) : List (Row R) :=
  (columns batch).map fun c => ⟨project, batch.id, c⟩

/-- A row names its batch. -/
theorem batch_of_mem_batchRows (columns : Batch Transaction → List R) (project : ProjectID)
    (batch : Batch Transaction) (row : Row R) (hrow : row ∈ batchRows columns project batch) :
    row.batch = batch.id := by
  obtain ⟨c, _, rfl⟩ := List.mem_map.mp hrow
  rfl

/-- A row names its Project. -/
theorem project_of_mem_batchRows (columns : Batch Transaction → List R) (project : ProjectID)
    (batch : Batch Transaction) (row : Row R) (hrow : row ∈ batchRows columns project batch) :
    row.project = project := by
  obtain ⟨c, _, rfl⟩ := List.mem_map.mp hrow
  rfl

/-- A Transaction that can't be read is skipped, and leaves the others of its batch. -/
theorem spansOfBatch_skip (lib : Library) (id : UUID) (before after : List Transaction)
    (transaction : Transaction) (error : String) (h : spansOf lib transaction = .error error) :
    spansOfBatch lib ⟨id, before ++ transaction :: after⟩ =
      spansOfBatch lib ⟨id, before ++ after⟩ := by
  simp [spansOfBatch, List.filterMap_append, h, Except.toOption]

/-- The rows of Spans that are inserted are those of each batch. -/
theorem spanRows_eq (lib : Library) (project : ProjectID) (batches : List (Batch Transaction)) :
    spanRows lib project batches = batches.flatMap (batchRows (spansOfBatch lib) project) := by
  refine List.flatMap_congr fun batch _ => ?_
  rw [batchRows, spansOfBatch]
  induction batch.items with
  | nil => rfl
  | cons transaction rest ih =>
    rw [List.flatMap_cons, ih, List.filterMap_cons]
    cases spansOf lib transaction with
    | ok rows => simp [Except.toOption]
    | error e => simp [Except.toOption]

/-- Of a readable Transaction's rows, the first is the only segment. -/
private theorem filter_isSegment {lib : Library} {transaction : Transaction} {spans : List Span}
    (h : spansOf lib transaction = .ok spans) :
    spans.filter Span.isSegment = spans.head?.toList := by
  obtain ⟨n, hn⟩ := isSegment_spansOf h
  cases spans with
  | nil => simp at hn
  | cons segment rest =>
    obtain ⟨hsegment, hrest⟩ := List.cons.inj hn
    have hnone : rest.filter Span.isSegment = [] := by
      refine List.filter_eq_nil_iff.mpr fun s hs => ?_
      have hmem : s.isSegment ∈ rest.map Span.isSegment := List.mem_map_of_mem hs
      rw [hrest] at hmem
      simpa using List.eq_of_mem_replicate hmem
    rw [List.filter_cons, if_pos hsegment, hnone]
    rfl

/-- The rows inserted into trace_index are the readable Transactions' segments. -/
theorem traceIndexRows_eq (lib : Library) (project : ProjectID)
    (batches : List (Batch Transaction)) :
    traceIndexRows (spanRows lib project batches) =
      batches.flatMap (batchRows (segmentsOfBatch lib) project) := by
  rw [spanRows_eq, traceIndexRows, List.filter_flatMap, List.map_flatMap]
  refine List.flatMap_congr fun batch _ => ?_
  rw [batchRows, batchRows, spansOfBatch, segmentsOfBatch]
  induction batch.items with
  | nil => rfl
  | cons transaction rest ih =>
    rw [List.filterMap_cons]
    cases h : spansOf lib transaction with
    | error e => simpa [Except.toOption] using ih
    | ok spans =>
      have hok : (Except.ok spans : Except String (List Span)).toOption = some spans := rfl
      simp only [hok, List.flatten_cons, List.map_append, List.filter_append, ih,
        List.filterMap_cons]
      rw [List.filter_map, Function.comp_def, show (spans.filter fun s => s.isSegment) = _ from
        filter_isSegment h]
      cases spans.head? with
      | none => rfl
      | some segment => rfl

/-- A range that has Spans has a segment. -/
theorem segments_ne_nil (lib : Library) (project : ProjectID) (batches : List (Batch Transaction))
    (h : spanRows lib project batches ≠ []) :
    batches.flatMap (batchRows (segmentsOfBatch lib) project) ≠ [] := by
  intro hnone
  refine h (List.flatMap_eq_nil_iff.mpr fun batch hbatch => ?_)
  refine List.flatMap_eq_nil_iff.mpr fun transaction htransaction => ?_
  have hsegments := List.map_eq_nil_iff.mp (List.flatMap_eq_nil_iff.mp hnone batch hbatch)
  cases hspans : spansOf lib transaction with
  | error e => rfl
  | ok spans =>
    have hmem : spans ∈ batch.items.filterMap fun t => (spansOf lib t).toOption :=
      List.mem_filterMap.mpr ⟨transaction, htransaction, by rw [hspans]; rfl⟩
    have hhead := List.filterMap_eq_nil_iff.mp hsegments spans hmem
    obtain ⟨n, hn⟩ := isSegment_spansOf hspans
    cases spans with
    | nil => simp at hn
    | cons segment rest => simp at hhead

namespace Table

/-- The tokens a table has taken for a Project. -/
def tokensOf (t : Table R) (project : ProjectID) : List (UUID × UUID) :=
  (t.tokens.filter fun token => token.project = project).map fun token => (token.after, token.upTo)

/-- A Project's rows. -/
def rowsOf (t : Table R) (project : ProjectID) : List (Row R) :=
  t.rows.filter fun row => row.project = project

/-- A Project's part of a table as a ledger, behind the Project's reader. -/
def ledger (t : Table R) (reader : RangeReader.State (Batch Transaction) UUID)
    (project : ProjectID) : Ledger.State (Batch Transaction) UUID (Row R) :=
  reader.ledger (t.tokensOf project) (t.rowsOf project)

/-- Whether a token is taken shows in its Project's tokens. -/
theorem mem_tokensOf (t : Table R) (project : ProjectID) (after upTo : UUID) :
    (after, upTo) ∈ t.tokensOf project ↔ (⟨project, after, upTo⟩ : Token) ∈ t.tokens := by
  simp only [tokensOf, List.mem_map, List.mem_filter, decide_eq_true_eq, Prod.mk.injEq]
  constructor
  · rintro ⟨token, ⟨htoken, rfl⟩, rfl, rfl⟩
    exact htoken
  · intro htoken
    exact ⟨_, ⟨htoken, rfl⟩, rfl, rfl⟩

variable (t : Table R) (reader : RangeReader.State (Batch Transaction) UUID)
  (columns : Batch Transaction → List R) (attempt : Attempt)

/-- A row of an attempt has the attempt's Project. -/
private theorem project_of_mem_range (row : Row R)
    (hrow : row ∈ attempt.range.items.flatMap (batchRows columns attempt.project)) :
    row.project = attempt.project := by
  obtain ⟨batch, _, hrow⟩ := List.mem_flatMap.mp hrow
  exact project_of_mem_batchRows columns attempt.project batch row hrow

/-- An insert of a range that has rows inserts it in its Project's ledger. -/
theorem ledger_insert_self
    (hrows : attempt.range.items.flatMap (batchRows columns attempt.project) ≠ []) :
    (t.insert (System.token attempt) (attempt.range.items.flatMap
        (batchRows columns attempt.project))).ledger reader attempt.project =
      (t.ledger reader attempt.project).insert (batchRows columns attempt.project)
        attempt.range := by
  have hmem : (attempt.range.after, attempt.range.upTo) ∈
      (t.ledger reader attempt.project).tokens ↔ System.token attempt ∈ t.tokens :=
    t.mem_tokensOf attempt.project _ _
  rw [Table.insert, Ledger.State.insert]
  by_cases htoken : System.token attempt ∈ t.tokens
  · rw [if_pos htoken, if_pos (Or.inr (hmem.mpr htoken))]
  · rw [if_neg htoken, if_neg (not_or.mpr ⟨hrows, fun h => htoken (hmem.mp h)⟩)]
    have hself := List.filter_eq_self.mpr fun row hrow =>
      decide_eq_true (project_of_mem_range columns attempt row hrow)
    simp [ledger, RangeReader.State.ledger, tokensOf, rowsOf, System.token, List.filter_append,
      hself]

/-- It leaves the other Projects' ledgers. -/
theorem ledger_insert_of_ne (other : ProjectID) (hother : attempt.project ≠ other) :
    (t.insert (System.token attempt) (attempt.range.items.flatMap
        (batchRows columns attempt.project))).ledger reader other = t.ledger reader other := by
  rw [Table.insert]
  split
  · rfl
  · have hnone : (attempt.range.items.flatMap (batchRows columns attempt.project)).filter
        (fun row => row.project = other) = [] := by
      refine List.filter_eq_nil_iff.mpr fun row hrow => ?_
      simpa [project_of_mem_range columns attempt row hrow] using hother
    simp [ledger, tokensOf, rowsOf, System.token, List.filter_append, hnone, hother]

end Table

/-- A Project's reader, of its Transaction batches in Pebble. -/
abbrev Reader := RangeReader.State (Batch Transaction) UUID

/-- What holds of a Project's reader. -/
abbrev ReaderInv (size : List Transaction → ℕ) : Reader → Prop :=
  RangeReader.State.Inv Batch.id (fun batch => size batch.items) maxBytesPerInsert UUID.Nil

/-- A range as `storeSpans` reads one. -/
abbrev IsRead (size : List Transaction → ℕ) : List (Batch Transaction) → TransactionRange → Prop :=
  RangeReader.IsRead Batch.id (fun batch => size batch.items) maxBytesPerInsert

/-- What Span processing reads of a Project. -/
def System.reader (s : System L) (project : ProjectID) : Reader where
  history := s.historyOf project
  pending := pendingBatches s.pebble.writer.transactionBatches project (s.cursor project)
  cursor := s.cursor project
  recorded := s.recorded project
  recording := s.recording project

/-- An attempt reads what the Project's reader takes next. -/
theorem System.readAttempt_eq (size : List Transaction → ℕ) (s : System L) (project : ProjectID) :
    readAttempt size s.pebble.writer project =
      ((s.reader project).next Batch.id (fun batch => size batch.items) maxBytesPerInsert).map
        fun taken => ⟨project, taken.1, taken.2⟩ := by
  rw [readAttempt, RangeReader.State.next, Option.map_map]
  rfl

/-- What holds of an attempt in each phase. -/
def Phase.Inv (lib : Library) (size : List Transaction → ℕ) (reader : ProjectID → Reader)
    (spans : Table Span) (traceIndex : Table TraceIndex) : Phase → Prop
  | .idle => True
  | .read attempt => attempt.range.after = (reader attempt.project).cursor ∧
      IsRead size (reader attempt.project).history attempt.range ∧
      if attempt.again then (reader attempt.project).held = some attempt.range
      else (reader attempt.project).recorded ≤ (reader attempt.project).cursor
  | .recorded attempt => (reader attempt.project).held = some attempt.range
  | .spansInserted attempt => (reader attempt.project).held = some attempt.range ∧
      spanRows lib attempt.project attempt.range.items ≠ [] ∧
      (spans.ledger (reader attempt.project) attempt.project).Stored
        (batchRows (spansOfBatch lib) attempt.project) attempt.range
  | .inserted attempt => (reader attempt.project).held = some attempt.range ∧
      (spans.ledger (reader attempt.project) attempt.project).Stored
        (batchRows (spansOfBatch lib) attempt.project) attempt.range ∧
      (traceIndex.ledger (reader attempt.project) attempt.project).Stored
        (batchRows (segmentsOfBatch lib) attempt.project) attempt.range
  | .moved attempt => (reader attempt.project).cursor = attempt.range.upTo ∧
      UUID.Nil < (reader attempt.project).cursor

/-- What ties each Project's reader to the two tables and the worker. -/
structure ViewInv (lib : Library) (size : List Transaction → ℕ) (s : System L) : Prop where
  reader : ∀ project, ReaderInv size (s.reader project)
  spans : ∀ project, Ledger.State.Inv Batch.id (batchRows (spansOfBatch lib) project)
    (s.spans.ledger (s.reader project) project)
  traceIndex : ∀ project, Ledger.State.Inv Batch.id (batchRows (segmentsOfBatch lib) project)
    (s.traceIndex.ledger (s.reader project) project)
  worker : s.worker.Inv lib size s.reader s.spans s.traceIndex

namespace System

/-- A system that differs only where no reader looks has the same readers. -/
theorem reader_congr {s t : System L} (hhistory : t.history = s.history)
    (hbatches : t.pebble.writer.transactionBatches = s.pebble.writer.transactionBatches)
    (hcursors : t.pebble.writer.spanCursors = s.pebble.writer.spanCursors)
    (hinserts : t.pebble.writer.spanInserts = s.pebble.writer.spanInserts)
    (hrecording : t.recording = s.recording) : t.reader = s.reader := by
  funext project
  simp only [reader, historyOf, cursor, recorded, PebbleWriter.spanProcessingCursor,
    PebbleWriter.recordedSpanInsert, hhistory, hbatches, hcursors, hinserts, hrecording]

/-- Deleting batches at or below their cursors leaves every reader. -/
theorem reader_deleteRange (s t : System L) (deleted : BatchKey → Bool)
    (hhistory : t.history = s.history)
    (hbatches : t.pebble.writer.transactionBatches =
      s.pebble.writer.transactionBatches.deleteRange deleted)
    (hcursors : t.pebble.writer.spanCursors = s.pebble.writer.spanCursors)
    (hinserts : t.pebble.writer.spanInserts = s.pebble.writer.spanInserts)
    (hrecording : t.recording = s.recording)
    (hdeleted : ∀ key, deleted key = true → s.cursor key.project ≠ UUID.Nil ∧
      key.id ≤ s.cursor key.project) : t.reader = s.reader := by
  funext project
  have hcursor : t.cursor project = s.cursor project := by
    simp only [cursor, PebbleWriter.spanProcessingCursor, hcursors]
  have hpending := pendingBatches_deleteRange s.pebble.writer.transactionBatches project
    (s.cursor project) deleted fun key hkey hproject => hproject ▸ hdeleted key hkey
  simp only [reader, hcursor, hbatches, hpending, historyOf, hhistory, recorded,
    PebbleWriter.recordedSpanInsert, hinserts, hrecording]

/-- An accepted write appends its batch to its Project's reader, and leaves the others. -/
theorem reader_writeTransactionBatch {size : List Transaction → ℕ} (s : System L)
    (project : ProjectID) (transactions : List Transaction) (receivedAt : ℤ) (random : UUID)
    (w : PebbleWriter L Transaction)
    (hw : s.pebble.writer.writeTransactionBatch project transactions receivedAt random = .ok w)
    (hinv : ReaderInv size (s.reader project)) (hnil : UUID.Nil < w.logBatchFloor)
    (hids : ∀ batch ∈ s.historyOf project, batch.id < w.logBatchFloor) (other : ProjectID) :
    (s.writeTransactionBatch project transactions receivedAt random).reader other =
      if other = project then (s.reader other).append ⟨w.logBatchFloor, transactions⟩
      else s.reader other := by
  have hsystem : s.writeTransactionBatch project transactions receivedAt random = { s with
      pebble := ⟨w, s.pebble.issued ++ [w.logBatchFloor]⟩
      history := s.history ++ [(project, ⟨w.logBatchFloor, transactions⟩)] } := by
    rw [System.writeTransactionBatch, hw]
  rw [PebbleWriter.writeTransactionBatch] at hw
  split at hw
  · simp at hw
  obtain rfl := Except.ok.inj hw
  rw [hsystem]
  by_cases hother : other = project
  · subst hother
    rw [if_pos rfl]
    refine RangeReader.State.ext ?_ ?_ rfl rfl rfl
    · simp [reader, historyOf, RangeReader.State.append, List.filter_append]
    · refine pendingBatches_set_self _ _ _ _ _ (hinv.cursor_lt hnil hids) fun batch hbatch => ?_
      have hpending : batch ∈ (s.reader other).pending := hbatch
      rw [hinv.pending] at hpending
      exact hids batch (mem_past.mp hpending).1
  · rw [if_neg hother]
    refine RangeReader.State.ext ?_ ?_ rfl rfl rfl
    · simp [reader, historyOf, List.filter_append, Ne.symm hother]
    · exact pendingBatches_set_of_ne _ _ _ _ (Ne.symm hother)

/-- Recording an attempt's range records it in its Project's reader. -/
theorem reader_recordSpanInsert (s : System L) (attempt : Attempt) (other : ProjectID) :
    (s.recordSpanInsert attempt).reader other =
      if other = attempt.project then (s.reader other).record attempt.range
      else s.reader other := by
  by_cases hother : other = attempt.project
  · subst hother
    rw [if_pos rfl]
    refine RangeReader.State.ext rfl rfl rfl ?_ ?_
    · simp [reader, recorded, recordSpanInsert, PebbleWriter.recordSpanInsert,
        PebbleWriter.recordedSpanInsert, RangeReader.State.record]
    · simp [reader, recordSpanInsert, RangeReader.State.record]
  · rw [if_neg hother]
    refine RangeReader.State.ext rfl rfl rfl ?_ ?_
    · simp [reader, recorded, recordSpanInsert, PebbleWriter.recordSpanInsert,
        PebbleWriter.recordedSpanInsert, Store.get?_set_of_ne _ _ hother]
    · simp [reader, recordSpanInsert, Function.update_of_ne hother]

/-- Moving the cursor past an attempt's range moves it in its Project's reader. -/
theorem reader_setSpanProcessingCursor (s : System L) (attempt : Attempt)
    (hforward : s.cursor attempt.project < attempt.range.upTo) (other : ProjectID) :
    (s.setSpanProcessingCursor attempt).reader other =
      if other = attempt.project then (s.reader other).move Batch.id attempt.range
      else s.reader other := by
  by_cases hother : other = attempt.project
  · subst hother
    rw [if_pos rfl]
    have hcursor : (s.setSpanProcessingCursor attempt).cursor attempt.project =
        attempt.range.upTo := by
      simp [cursor, setSpanProcessingCursor, PebbleWriter.setSpanProcessingCursor,
        PebbleWriter.spanProcessingCursor]
    refine RangeReader.State.ext rfl ?_ hcursor rfl rfl
    change pendingBatches s.pebble.writer.transactionBatches _
      ((s.setSpanProcessingCursor attempt).cursor attempt.project) = _
    rw [hcursor]
    exact pendingBatches_move _ _ hforward
  · rw [if_neg hother]
    have hcursor : (s.setSpanProcessingCursor attempt).cursor other = s.cursor other := by
      simp [cursor, setSpanProcessingCursor, PebbleWriter.setSpanProcessingCursor,
        PebbleWriter.spanProcessingCursor, Store.get?_set_of_ne _ _ hother]
    refine RangeReader.State.ext rfl ?_ hcursor rfl rfl
    change pendingBatches s.pebble.writer.transactionBatches _
      ((s.setSpanProcessingCursor attempt).cursor other) = _
    rw [hcursor]
    rfl

end System

namespace ViewInv

variable {lib : Library} {size : List Transaction → ℕ} {s : System L}

/-- Nothing is stored of nothing. -/
theorem init : ViewInv lib size (System.init : System L) where
  reader := fun _ => RangeReader.State.Inv.empty
  spans := fun _ => Ledger.State.Inv.empty UUID.Nil
  traceIndex := fun _ => Ledger.State.Inv.empty UUID.Nil
  worker := trivial

/-- A step that leaves every reader and both tables keeps the invariant when the new phase's part
holds. -/
theorem of_eq (hinv : ViewInv lib size s) {t : System L} (hreader : t.reader = s.reader)
    (hspans : t.spans = s.spans) (htraceIndex : t.traceIndex = s.traceIndex)
    (hworker : t.worker.Inv lib size s.reader s.spans s.traceIndex) : ViewInv lib size t where
  reader := by
    rw [hreader]
    exact hinv.reader
  spans := by
    rw [hreader, hspans]
    exact hinv.spans
  traceIndex := by
    rw [hreader, htraceIndex]
    exact hinv.traceIndex
  worker := by
    rw [hreader, hspans, htraceIndex]
    exact hworker

/-- A change of the worker alone. -/
theorem setWorker (hinv : ViewInv lib size s) (worker : Phase)
    (hworker : worker.Inv lib size s.reader s.spans s.traceIndex) :
    ViewInv lib size { s with worker } :=
  hinv.of_eq rfl rfl rfl hworker

/-- A write's outcome keeps the invariant when the write and the next phase do. -/
theorem settle (hinv : ViewInv lib size s) {written : System L} {next : Phase}
    (hwritten : ViewInv lib size { written with worker := next }) (outcome : Outcome) :
    ViewInv lib size (s.settle written next outcome) := by
  cases outcome with
  | done => exact hwritten
  | failedAfter => exact hwritten.setWorker .idle trivial
  | failedBefore => exact hinv.setWorker .idle trivial

/-- A batch written past its Project's batches leaves an attempt as it is. -/
private theorem worker_append (hinv : ViewInv lib size s) (project : ProjectID)
    (batch : Batch Transaction) {reader : ProjectID → Reader}
    (hreader : ∀ other, reader other =
      if other = project then (s.reader other).append batch else s.reader other)
    (hbatch : ∀ earlier ∈ s.historyOf project, earlier.id < batch.id) :
    s.worker.Inv lib size reader s.spans s.traceIndex := by
  have hkeeps : ∀ other, (reader other).cursor = (s.reader other).cursor ∧
      (reader other).recorded = (s.reader other).recorded ∧
      (reader other).held = (s.reader other).held := by
    intro other
    rw [hreader]
    split <;> exact ⟨rfl, rfl, rfl⟩
  have hstored : ∀ (R : Type) (t : Table R) (rows : Batch Transaction → List (Row R))
      (other : ProjectID) (range : TransactionRange),
      (t.ledger (s.reader other) other).Stored rows range →
      (t.ledger (reader other) other).Stored rows range := fun _ _ _ _ _ h => h
  have hphase := hinv.worker
  cases hworker : s.worker with
  | idle => trivial
  | read attempt =>
    rw [hworker] at hphase
    obtain ⟨hafter, hread, hagain⟩ := hphase
    obtain ⟨hcursor, hrecorded, hheld⟩ := hkeeps attempt.project
    refine ⟨hafter.trans hcursor.symm, ?_, ?_⟩
    · rw [hreader]
      split
      · rename_i hproject
        obtain ⟨last, hlast, hid⟩ := hread.exists_upTo
        exact hread.append batch (hid ▸ hbatch last (hproject ▸ hlast))
      · exact hread
    · rw [hcursor, hrecorded, hheld]
      exact hagain
  | recorded attempt =>
    rw [hworker] at hphase
    exact (hkeeps attempt.project).2.2.trans hphase
  | spansInserted attempt =>
    rw [hworker] at hphase
    obtain ⟨hheld, hrows, hspans⟩ := hphase
    exact ⟨(hkeeps attempt.project).2.2.trans hheld, hrows, hstored _ _ _ _ _ hspans⟩
  | inserted attempt =>
    rw [hworker] at hphase
    obtain ⟨hheld, hspans, hindex⟩ := hphase
    exact ⟨(hkeeps attempt.project).2.2.trans hheld, hstored _ _ _ _ _ hspans,
      hstored _ _ _ _ _ hindex⟩
  | moved attempt =>
    rw [hworker] at hphase
    rw [Phase.Inv, (hkeeps attempt.project).1]
    exact hphase

/-- A Transaction batch written past its Project's batches keeps the invariant. -/
theorem writeTransactionBatch (hinv : ViewInv lib size s) (project : ProjectID)
    (transactions : List Transaction) (receivedAt : ℤ) (random : UUID)
    (w : PebbleWriter L Transaction)
    (hw : s.pebble.writer.writeTransactionBatch project transactions receivedAt random = .ok w)
    (hnil : UUID.Nil < w.logBatchFloor)
    (hids : ∀ batch ∈ s.historyOf project, batch.id < w.logBatchFloor) :
    ViewInv lib size (s.writeTransactionBatch project transactions receivedAt random) := by
  have hreader := s.reader_writeTransactionBatch project transactions receivedAt random w hw
    (hinv.reader project) hnil hids
  have hspans : (s.writeTransactionBatch project transactions receivedAt random).spans =
      s.spans := by
    rw [System.writeTransactionBatch, hw]
  have hindex : (s.writeTransactionBatch project transactions receivedAt random).traceIndex =
      s.traceIndex := by
    rw [System.writeTransactionBatch, hw]
  have hworker : (s.writeTransactionBatch project transactions receivedAt random).worker =
      s.worker := by
    rw [System.writeTransactionBatch, hw]
  refine ⟨fun other => ?_, fun other => ?_, fun other => ?_, ?_⟩
  · rw [hreader]
    split
    · rename_i hother
      subst hother
      exact (hinv.reader other).append _ hnil hids
    · exact hinv.reader other
  · rw [hreader, hspans]
    split
    · rename_i hother
      subst hother
      exact (hinv.reader other).ledger_append (hinv.spans other) _ hnil hids
    · exact hinv.spans other
  · rw [hreader, hindex]
    split
    · rename_i hother
      subst hother
      exact (hinv.reader other).ledger_append (hinv.traceIndex other) _ hnil hids
    · exact hinv.traceIndex other
  · rw [hspans, hindex, hworker]
    exact hinv.worker_append project ⟨w.logBatchFloor, transactions⟩ hreader hids

/-- Reading an attempt keeps the invariant. -/
theorem read (hinv : ViewInv lib size s) (project : ProjectID) (attempt : Attempt)
    (hread : readAttempt size s.pebble.writer project = some attempt) :
    ViewInv lib size { s with worker := .read attempt } := by
  refine hinv.setWorker _ ?_
  rw [s.readAttempt_eq] at hread
  obtain ⟨⟨range, again⟩, hnext, rfl⟩ := Option.map_eq_some_iff.mp hread
  by_cases hlt : s.cursor project < s.recorded project
  · obtain ⟨other, hrecording, -⟩ := (hinv.reader project).recorded hlt
    have hheld := RangeReader.State.held_of_lt hlt hrecording
    rw [(hinv.reader project).next_of_held hheld] at hnext
    obtain ⟨rfl, rfl⟩ := Prod.mk.inj (Option.some.inj hnext)
    obtain ⟨-, hafter, -, hisRead⟩ := (hinv.reader project).of_held hheld
    exact ⟨hafter, hisRead, hheld⟩
  · obtain ⟨rfl, hafter, hisRead⟩ :=
      (hinv.reader project).next_of_not_held (not_lt.mp hlt) hnext
    exact ⟨hafter, hisRead, not_lt.mp hlt⟩

/-- Recording a range not recorded before keeps the invariant. -/
theorem recordSpanInsert (hinv : ViewInv lib size s) (attempt : Attempt)
    (hworker : s.worker = .read attempt) (hagain : attempt.again = false) :
    ViewInv lib size { s.recordSpanInsert attempt with worker := .recorded attempt } := by
  have hphase := hinv.worker
  rw [hworker] at hphase
  obtain ⟨hafter, hread, hle⟩ := hphase
  rw [hagain] at hle
  have hreader : ∀ other, System.reader
      { s.recordSpanInsert attempt with worker := .recorded attempt } other =
        if other = attempt.project then (s.reader other).record attempt.range
        else s.reader other := s.reader_recordSpanInsert attempt
  refine ⟨fun other => ?_, fun other => ?_, fun other => ?_, ?_⟩
  · rw [hreader]
    split
    · rename_i hother
      subst hother
      exact (hinv.reader _).record hafter hread
    · exact hinv.reader other
  · rw [hreader]
    split
    · rename_i hother
      subst hother
      exact RangeReader.State.ledger_record (hinv.spans _) hle hafter hread
    · exact hinv.spans other
  · rw [hreader]
    split
    · rename_i hother
      subst hother
      exact RangeReader.State.ledger_record (hinv.traceIndex _) hle hafter hread
    · exact hinv.traceIndex other
  · rw [Phase.Inv, hreader, if_pos rfl]
    exact RangeReader.State.held_of_lt (hafter ▸ hread.isRange.nonempty) rfl

/-- A range without Spans is stored before it is inserted. -/
theorem skipInsert (hinv : ViewInv lib size s) (attempt : Attempt)
    (hworker : s.worker = .recorded attempt)
    (hrows : spanRows lib attempt.project attempt.range.items = []) :
    ViewInv lib size { s with worker := .inserted attempt } := by
  have hphase := hinv.worker
  rw [hworker] at hphase
  refine hinv.setWorker _ ⟨hphase, Or.inr ?_, Or.inr ?_⟩
  · rw [← spanRows_eq, hrows]
  · rw [← traceIndexRows_eq, hrows]
    rfl

/-- Inserting a held range's Spans keeps the invariant. -/
theorem insertIntoSpans (hinv : ViewInv lib size s) (attempt : Attempt)
    (hworker : s.worker = .recorded attempt)
    (hrows : spanRows lib attempt.project attempt.range.items ≠ []) :
    ViewInv lib size
      { s.insertIntoSpans lib attempt with worker := .spansInserted attempt } := by
  have hphase := hinv.worker
  rw [hworker] at hphase
  have hheld : (s.reader attempt.project).held = some attempt.range := hphase
  have hnonempty := hrows
  rw [spanRows_eq] at hnonempty
  have hledger := s.spans.ledger_insert_self (s.reader attempt.project) _ attempt hnonempty
  have htable : (s.insertIntoSpans lib attempt).spans = s.spans.insert (System.token attempt)
      (attempt.range.items.flatMap (batchRows (spansOfBatch lib) attempt.project)) :=
    congrArg (s.spans.insert _) (spanRows_eq lib attempt.project attempt.range.items)
  refine ⟨hinv.reader, fun other => ?_, hinv.traceIndex, hheld, hrows, ?_⟩
  · change Ledger.State.Inv _ _ ((s.insertIntoSpans lib attempt).spans.ledger (s.reader other) other)
    rw [htable]
    by_cases hother : attempt.project = other
    · subst hother
      rw [hledger]
      exact (hinv.spans _).insert attempt.range hheld
    · rw [s.spans.ledger_insert_of_ne _ _ attempt other hother]
      exact hinv.spans other
  · change ((s.insertIntoSpans lib attempt).spans.ledger (s.reader attempt.project)
      attempt.project).Stored _ _
    rw [htable, hledger]
    exact Ledger.State.stored_insert _ _

/-- Inserting a held range's segments keeps the invariant. -/
theorem insertIntoTraceIndex (hinv : ViewInv lib size s) (attempt : Attempt)
    (hworker : s.worker = .spansInserted attempt) :
    ViewInv lib size
      { s.insertIntoTraceIndex lib attempt with worker := .inserted attempt } := by
  have hphase := hinv.worker
  rw [hworker] at hphase
  obtain ⟨hheld, hrows, hspans⟩ := hphase
  have hledger := s.traceIndex.ledger_insert_self (s.reader attempt.project) _ attempt
    (segments_ne_nil lib attempt.project attempt.range.items hrows)
  have htable : (s.insertIntoTraceIndex lib attempt).traceIndex =
      s.traceIndex.insert (System.token attempt)
        (attempt.range.items.flatMap (batchRows (segmentsOfBatch lib) attempt.project)) :=
    congrArg (s.traceIndex.insert _) (traceIndexRows_eq lib attempt.project attempt.range.items)
  refine ⟨hinv.reader, hinv.spans, fun other => ?_, hheld, hspans, ?_⟩
  · change Ledger.State.Inv _ _
      ((s.insertIntoTraceIndex lib attempt).traceIndex.ledger (s.reader other) other)
    rw [htable]
    by_cases hother : attempt.project = other
    · subst hother
      rw [hledger]
      exact (hinv.traceIndex _).insert attempt.range hheld
    · rw [s.traceIndex.ledger_insert_of_ne _ _ attempt other hother]
      exact hinv.traceIndex other
  · change ((s.insertIntoTraceIndex lib attempt).traceIndex.ledger (s.reader attempt.project)
      attempt.project).Stored _ _
    rw [htable, hledger]
    exact Ledger.State.stored_insert _ _

/-- Moving the cursor past a range that both tables hold keeps the invariant. -/
theorem setSpanProcessingCursor (hinv : ViewInv lib size s) (attempt : Attempt)
    (hworker : s.worker = .inserted attempt) :
    ViewInv lib size { s.setSpanProcessingCursor attempt with worker := .moved attempt } := by
  have hphase := hinv.worker
  rw [hworker] at hphase
  obtain ⟨hheld, hspans, hindex⟩ := hphase
  obtain ⟨hlt, -, hupTo, -⟩ := (hinv.reader attempt.project).of_held hheld
  have hforward : s.cursor attempt.project < attempt.range.upTo := hupTo ▸ hlt
  have hreader : ∀ other, System.reader
      { s.setSpanProcessingCursor attempt with worker := .moved attempt } other =
        if other = attempt.project then (s.reader other).move Batch.id attempt.range
        else s.reader other := s.reader_setSpanProcessingCursor attempt hforward
  refine ⟨fun other => ?_, fun other => ?_, fun other => ?_, ?_⟩
  · rw [hreader]
    split
    · rename_i hother
      subst hother
      exact (hinv.reader _).move hheld
    · exact hinv.reader other
  · rw [hreader]
    split
    · rename_i hother
      subst hother
      exact (hinv.reader _).ledger_move (hinv.spans _) hheld hspans
    · exact hinv.spans other
  · rw [hreader]
    split
    · rename_i hother
      subst hother
      exact (hinv.reader _).ledger_move (hinv.traceIndex _) hheld hindex
    · exact hinv.traceIndex other
  · rw [Phase.Inv, hreader, if_pos rfl]
    exact ⟨rfl, (UUID.Nil_le _).trans_lt hforward⟩

/-- Deleting the batches of a range behind the cursor keeps the invariant. -/
theorem deleteTransactionBatches (hinv : ViewInv lib size s) (attempt : Attempt)
    (hworker : s.worker = .moved attempt) :
    ViewInv lib size { s.deleteTransactionBatches attempt with worker := .idle } := by
  have hphase := hinv.worker
  rw [hworker] at hphase
  obtain ⟨hcursor, hnil⟩ := hphase
  refine hinv.of_eq ?_ rfl rfl trivial
  refine s.reader_deleteRange _ (keysUpTo attempt.project attempt.range.upTo) rfl rfl rfl rfl rfl
    fun key hkey => ?_
  simp only [keysUpTo, Bool.and_eq_true, decide_eq_true_eq] at hkey
  obtain ⟨hproject, hle⟩ := hkey
  rw [hproject]
  exact ⟨hnil.ne', hle.trans hcursor.symm.le⟩

/-- A crash and the restart after it keep the invariant. -/
theorem crash (hinv : ViewInv lib size s) :
    ViewInv lib size { s with
      pebble := { s.pebble with writer := s.pebble.writer.restart }, worker := .idle } := by
  obtain ⟨floor, -, hrestart⟩ := s.pebble.writer.restart_eq
  refine hinv.of_eq ?_ rfl rfl trivial
  refine s.reader_deleteRange _ (PebbleWriter.handled s.pebble.writer.spanProcessingCursor) rfl
    (by rw [hrestart]) (by rw [hrestart]) (by rw [hrestart]) rfl fun key hkey => ?_
  simp only [PebbleWriter.handled, Bool.and_eq_true, decide_eq_true_eq] at hkey
  exact hkey

end ViewInv

/-- Log writes and Log processing leave the Transaction batches, cursors and records. -/
theorem BatchRun.step_leaves_transactions {s t : BatchRun L Transaction}
    {b : BatchAction L Transaction}
    (hb : b matches .writeLogBatch .. | .recordLogInsert .. | .setLogProcessingCursor ..
      | .deleteLogBatchesUpTo .. | .stopWrites) (hstep : s.step b = some t) :
    t.writer.transactionBatches = s.writer.transactionBatches ∧
      t.writer.spanCursors = s.writer.spanCursors ∧
      t.writer.spanInserts = s.writer.spanInserts := by
  cases b with
  | writeLogBatch project logs receivedAt random =>
    obtain rfl := Option.some.inj hstep
    rw [PebbleWriter.writeLogBatch]
    split <;> exact ⟨rfl, rfl, rfl⟩
  | recordLogInsert project upTo =>
    obtain rfl := Option.some.inj hstep
    exact ⟨rfl, rfl, rfl⟩
  | setLogProcessingCursor project cursor =>
    obtain rfl := Option.some.inj (Option.ite_none_right_eq_some.mp hstep).2
    exact ⟨rfl, rfl, rfl⟩
  | deleteLogBatchesUpTo project upTo =>
    obtain rfl := Option.some.inj (Option.ite_none_right_eq_some.mp hstep).2
    exact ⟨rfl, rfl, rfl⟩
  | stopWrites =>
    obtain rfl := Option.some.inj hstep
    exact ⟨rfl, rfl, rfl⟩
  | writeTransactionBatch | recordSpanInsert | setSpanProcessingCursor
  | deleteTransactionBatchesUpTo | restart => simp at hb

/-- What ties Pebble, ClickHouse and the worker over every run whose writes have room: every
Transaction batch's id was handed out, so the ids increase. -/
structure SpanInv (lib : Library) (size : List Transaction → ℕ) (s : System L) : Prop where
  ids : BatchRun.IDInv s.pebble
  issued : ∀ e ∈ s.history, e.2.id ∈ s.pebble.issued
  view : ViewInv lib size s

namespace SpanInv

variable {lib : Library} {size : List Transaction → ℕ} {s t : System L}

/-- A step of Pebble that writes no Transaction batch keeps the ids handed out, and so the
invariant, when it keeps the views. -/
theorem of_pebbleStep (hinv : SpanInv lib size s) (b : BatchAction L Transaction)
    (hstep : s.pebble.step b = some t.pebble) (hroom : s.pebble.writesHaveRoom b)
    (hhistory : t.history = s.history) (hview : ViewInv lib size t) : SpanInv lib size t := by
  refine ⟨hinv.ids.step hroom hstep, fun e he => ?_, hview⟩
  have hissued := hinv.issued e (hhistory ▸ he)
  rcases BatchRun.step_cases hstep with ⟨_, _, hissues, _⟩ | hkeeps
  · rw [hissues.issued]
    exact List.mem_append_left _ hissued
  · rw [hkeeps.issued]
    exact hissued

/-- A step that leaves Pebble keeps the invariant when it keeps the views. -/
theorem of_pebble_eq (hinv : SpanInv lib size s) (hpebble : t.pebble = s.pebble)
    (hhistory : t.history = s.history) (hview : ViewInv lib size t) : SpanInv lib size t where
  ids := hpebble ▸ hinv.ids
  issued := fun e he => hpebble ▸ hinv.issued e (hhistory ▸ he)
  view := hview

/-- A write to Pebble keeps the invariant however it ends. -/
theorem settle (hinv : SpanInv lib size s) (b : BatchAction L Transaction) (written : System L)
    (next : Phase) (hstep : s.pebble.step b = some written.pebble)
    (hroom : s.pebble.writesHaveRoom b) (hhistory : written.history = s.history)
    (hview : ViewInv lib size { written with worker := next }) (outcome : Outcome) :
    SpanInv lib size (s.settle written next outcome) := by
  have hsettled := hinv.view.settle hview outcome
  cases outcome with
  | done => exact hinv.of_pebbleStep b hstep hroom hhistory hsettled
  | failedAfter => exact hinv.of_pebbleStep b hstep hroom hhistory hsettled
  | failedBefore => exact hinv.of_pebble_eq rfl rfl hsettled

/-- A write to ClickHouse keeps the invariant however it ends. -/
theorem settleTable (hinv : SpanInv lib size s) (written : System L) (next : Phase)
    (hpebble : written.pebble = s.pebble) (hhistory : written.history = s.history)
    (hview : ViewInv lib size { written with worker := next }) (outcome : Outcome) :
    SpanInv lib size (s.settle written next outcome) := by
  have hsettled := hinv.view.settle hview outcome
  cases outcome with
  | done => exact hinv.of_pebble_eq hpebble hhistory hsettled
  | failedAfter => exact hinv.of_pebble_eq hpebble hhistory hsettled
  | failedBefore => exact hinv.of_pebble_eq rfl rfl hsettled

/-- A Transaction batch written with room keeps the invariant. -/
theorem writeTransactionBatch (hinv : SpanInv lib size s) (project : ProjectID)
    (transactions : List Transaction) (receivedAt : ℤ) (random : UUID)
    (hroom : BatchRun.hasRoom s.pebble.writer.logBatchFloor random receivedAt) :
    SpanInv lib size (s.writeTransactionBatch project transactions receivedAt random) := by
  cases hw : s.pebble.writer.writeTransactionBatch project transactions receivedAt random with
  | error e =>
    rw [System.writeTransactionBatch, hw]
    exact hinv
  | ok w =>
    have hfloor : w.logBatchFloor =
        PebbleWriter.drawBatchID s.pebble.writer.logBatchFloor random receivedAt :=
      (BatchRun.HandsOut.transaction project transactions w hw).eq_drawBatchID
    obtain ⟨hdrawn, hversion, -⟩ :=
      BatchRun.drawBatchID_spec _ random receivedAt hinv.ids.version.floor hroom
    have hids : ∀ batch ∈ s.historyOf project, batch.id < w.logBatchFloor := by
      intro batch hbatch
      obtain ⟨e, he, rfl⟩ := List.mem_map.mp hbatch
      have hle := hinv.ids.issued_le _ (hinv.issued e (List.mem_of_mem_filter he))
      exact hle.trans_lt (hfloor ▸ hdrawn)
    have hview := hinv.view.writeTransactionBatch project transactions receivedAt random w hw
      (hfloor ▸ Nil_lt_of_version _ hversion.1) hids
    have hsystem : s.writeTransactionBatch project transactions receivedAt random = { s with
        pebble := ⟨w, s.pebble.issued ++ [w.logBatchFloor]⟩
        history := s.history ++ [(project, ⟨w.logBatchFloor, transactions⟩)] } := by
      rw [System.writeTransactionBatch, hw]
    have hstep : s.pebble.step (.writeTransactionBatch project transactions receivedAt random) =
        some (s.writeTransactionBatch project transactions receivedAt random).pebble := by
      rw [hsystem, BatchRun.step, hw]
      rfl
    have hwrite : s.pebble.writesHaveRoom
        (.writeTransactionBatch project transactions receivedAt random) := hroom
    refine ⟨hinv.ids.step hwrite hstep, fun e he => ?_, hview⟩
    rw [hsystem] at he ⊢
    rcases List.mem_append.mp he with he | he
    · exact List.mem_append_left _ (hinv.issued e he)
    · rw [List.mem_singleton.mp he]
      exact List.mem_append_right _ (List.mem_singleton.mpr rfl)

/-- Log writes and Log processing keep the invariant. -/
theorem pebbleStep (hinv : SpanInv lib size s) (b : BatchAction L Transaction)
    (hb : b matches .writeLogBatch .. | .recordLogInsert .. | .setLogProcessingCursor ..
      | .deleteLogBatchesUpTo .. | .stopWrites) (hroom : s.pebble.writesHaveRoom b)
    (hstep : ((s.pebble.step b).map fun pebble => { s with pebble }) = some t) :
    SpanInv lib size t := by
  obtain ⟨pebble, hpebble, rfl⟩ := Option.map_eq_some_iff.mp hstep
  obtain ⟨hbatches, hcursors, hinserts⟩ := BatchRun.step_leaves_transactions hb hpebble
  have hreader : System.reader { s with pebble } = s.reader :=
    System.reader_congr rfl hbatches hcursors hinserts rfl
  exact hinv.of_pebbleStep b hpebble hroom rfl
    (hinv.view.of_eq hreader rfl rfl hinv.view.worker)

/-- The last batch of a held range is in Pebble and past the cursor. -/
theorem holds_upTo (hinv : SpanInv lib size s) (attempt : Attempt)
    (hheld : (s.reader attempt.project).held = some attempt.range) :
    BatchRun.holds s.pebble.writer.transactionBatches attempt.project attempt.range.upTo = true ∧
      s.cursor attempt.project < attempt.range.upTo := by
  have hreader := hinv.view.reader attempt.project
  obtain ⟨hlt, -, hupTo, hread⟩ := hreader.of_held hheld
  have hforward : s.cursor attempt.project < attempt.range.upTo := hupTo ▸ hlt
  obtain ⟨batch, hbatch, hid⟩ := hread.exists_upTo
  refine ⟨?_, hforward⟩
  have hpending : batch ∈ (s.reader attempt.project).pending := by
    rw [hreader.pending]
    exact mem_past.mpr ⟨hbatch, hid ▸ hforward⟩
  rw [← hid]
  exact holds_of_mem_pendingBatches _ _ _ batch hpending

/-- Every step whose write has room keeps the invariant. -/
theorem step (hinv : SpanInv lib size s) {a : Action L} (hroom : s.writesHaveRoom a)
    (hstep : s.step lib size a = some t) : SpanInv lib size t := by
  cases a with
  | writeTransactionBatch project transactions receivedAt random =>
    obtain rfl := Option.some.inj hstep
    exact hinv.writeTransactionBatch project transactions receivedAt random hroom
  | writeLogBatch project logs receivedAt random =>
    exact hinv.pebbleStep (.writeLogBatch project logs receivedAt random) rfl hroom hstep
  | recordLogInsert project upTo =>
    exact hinv.pebbleStep (.recordLogInsert project upTo) rfl trivial hstep
  | setLogProcessingCursor project cursor =>
    exact hinv.pebbleStep (.setLogProcessingCursor project cursor) rfl trivial hstep
  | deleteLogBatchesUpTo project upTo =>
    exact hinv.pebbleStep (.deleteLogBatchesUpTo project upTo) rfl trivial hstep
  | stopWrites => exact hinv.pebbleStep .stopWrites rfl trivial hstep
  | read project =>
    rw [System.step] at hstep
    split at hstep
    · split at hstep
      · rename_i attempt hread
        obtain rfl := Option.some.inj hstep
        exact hinv.of_pebble_eq rfl rfl (hinv.view.read project attempt hread)
      · obtain rfl := Option.some.inj hstep
        exact hinv
    · simp at hstep
  | record outcome =>
    rw [System.step] at hstep
    split at hstep
    · rename_i attempt hworker
      split at hstep
      · rename_i hagain
        obtain rfl := Option.some.inj hstep
        have hphase := hinv.view.worker
        rw [hworker] at hphase
        obtain ⟨-, -, hheld⟩ := hphase
        rw [if_pos hagain] at hheld
        exact hinv.of_pebble_eq rfl rfl (hinv.view.setWorker _ hheld)
      · rename_i hagain
        obtain rfl := Option.some.inj hstep
        exact hinv.settle (.recordSpanInsert attempt.project attempt.range.upTo)
          (s.recordSpanInsert attempt) (.recorded attempt) rfl trivial rfl
          (hinv.view.recordSpanInsert attempt hworker (by simpa using hagain)) outcome
    · simp at hstep
  | insertSpans outcome =>
    rw [System.step] at hstep
    split at hstep
    · rename_i attempt hworker
      split at hstep
      · rename_i hempty
        obtain rfl := Option.some.inj hstep
        exact hinv.of_pebble_eq rfl rfl
          (hinv.view.skipInsert attempt hworker (List.isEmpty_iff.mp hempty))
      · rename_i hrows
        obtain rfl := Option.some.inj hstep
        have hview := hinv.view.insertIntoSpans attempt hworker
          fun h => hrows (List.isEmpty_iff.mpr h)
        exact hinv.settleTable (s.insertIntoSpans lib attempt) (.spansInserted attempt) rfl rfl
          hview outcome
    · simp at hstep
  | insertTraceIndex outcome =>
    rw [System.step] at hstep
    split at hstep
    · rename_i attempt hworker
      obtain rfl := Option.some.inj hstep
      exact hinv.settleTable (s.insertIntoTraceIndex lib attempt) (.inserted attempt) rfl rfl
        (hinv.view.insertIntoTraceIndex attempt hworker) outcome
    · simp at hstep
  | moveCursor outcome =>
    rw [System.step] at hstep
    split at hstep
    · rename_i attempt hworker
      obtain rfl := Option.some.inj hstep
      have hphase := hinv.view.worker
      rw [hworker] at hphase
      exact hinv.settle (.setSpanProcessingCursor attempt.project attempt.range.upTo)
        (s.setSpanProcessingCursor attempt) (.moved attempt) (if_pos (hinv.holds_upTo attempt hphase.1)) trivial rfl
        (hinv.view.setSpanProcessingCursor attempt hworker) outcome
    · simp at hstep
  | deleteBatches outcome =>
    rw [System.step] at hstep
    split at hstep
    · rename_i attempt hworker
      obtain rfl := Option.some.inj hstep
      have hphase := hinv.view.worker
      rw [hworker] at hphase
      exact hinv.settle (.deleteTransactionBatchesUpTo attempt.project attempt.range.upTo)
        (s.deleteTransactionBatches attempt) .idle (if_pos hphase.1.symm.le) trivial rfl
        (hinv.view.deleteTransactionBatches attempt hworker) outcome
    · simp at hstep
  | crash =>
    obtain rfl := Option.some.inj hstep
    exact hinv.of_pebbleStep .restart rfl trivial rfl hinv.view.crash

/-- Every run that meets the condition keeps the invariant. -/
theorem of_reaches
    (hrun : Reaches (System.step lib size) System.writesHaveRoom System.init s) :
    SpanInv lib size s :=
  hrun.invariant ⟨BatchRun.IDInv.init, by simp [System.init], ViewInv.init⟩
    fun _ _ _ hinv hroom hstep => hinv.step hroom hstep

end SpanInv

/-- A table's rows of a Project's batch. -/
def Table.rowsOfBatch (t : Table R) (project : ProjectID) (id : UUID) : List (Row R) :=
  t.rows.filter fun row => row.project = project ∧ row.batch = id

/-- Every row of a table is of a written batch; a batch has no row yet or each of its rows once;
and it has each once when it is behind the cursor or gone from Pebble. -/
structure TableOnce (s : System L) (t : Table R) (columns : Batch Transaction → List R) :
    Prop where
  /-- Every row is of a written batch. -/
  written : ∀ row ∈ t.rows, ∃ batch ∈ s.historyOf row.project,
    row ∈ batchRows columns row.project batch
  /-- A batch has no row yet, or each of its rows once. -/
  once : ∀ project, ∀ batch ∈ s.historyOf project, t.rowsOfBatch project batch.id = [] ∨
    t.rowsOfBatch project batch.id = batchRows columns project batch
  /-- A batch behind the cursor is stored. -/
  cursor : ∀ project, ∀ batch ∈ s.historyOf project, batch.id ≤ s.cursor project →
    t.rowsOfBatch project batch.id = batchRows columns project batch
  /-- A batch gone from Pebble is stored. -/
  deleted : ∀ project, ∀ batch ∈ s.historyOf project,
    BatchRun.holds s.pebble.writer.transactionBatches project batch.id = false →
    t.rowsOfBatch project batch.id = batchRows columns project batch

/-- The ledgers of a table say that it holds each row once. -/
theorem TableOnce.of_ledger {size : List Transaction → ℕ} {s : System L} {t : Table R}
    {columns : Batch Transaction → List R} (hreader : ∀ project, ReaderInv size (s.reader project))
    (hledger : ∀ project, Ledger.State.Inv Batch.id (batchRows columns project)
      (t.ledger (s.reader project) project)) : TableOnce s t columns := by
  have hstored : ∀ project, t.rowsOf project =
      (SortedHistory.upTo Batch.id (s.historyOf project)
        (t.ledger (s.reader project) project).frontier).flatMap (batchRows columns project) :=
    fun project => (hledger project).stored
  have hrows : ∀ project, ∀ batch ∈ s.historyOf project, t.rowsOfBatch project batch.id =
      if batch.id ≤ (t.ledger (s.reader project) project).frontier then
        batchRows columns project batch else [] := by
    intro project batch hbatch
    have hfilter : t.rowsOfBatch project batch.id =
        (t.rowsOf project).filter fun row => row.batch = batch.id := by
      rw [Table.rowsOfBatch, Table.rowsOf, List.filter_filter]
      exact List.filter_congr fun row _ => by rw [Bool.decide_and, Bool.and_comm]
    rw [hfilter, hstored]
    split
    · rename_i hle
      exact Ledger.filter_flatMap_owner Batch.id _ (batch_of_mem_batchRows columns project)
        ((hledger project).increasing.filter _) batch (mem_upTo.mpr ⟨hbatch, hle⟩)
    · rename_i hgt
      refine Ledger.filter_flatMap_owner_of_not_mem Batch.id _
        (batch_of_mem_batchRows columns project) _ _ fun other hother => ?_
      exact ((mem_upTo.mp hother).2.trans_lt (not_le.mp hgt)).ne
  have hcursor : ∀ project, ∀ batch ∈ s.historyOf project, batch.id ≤ s.cursor project →
      t.rowsOfBatch project batch.id = batchRows columns project batch := by
    intro project batch hbatch hle
    rw [hrows project batch hbatch, if_pos (hle.trans (hledger project).cursor_le_frontier)]
  refine ⟨fun row hrow => ?_, fun project batch hbatch => ?_, hcursor,
    fun project batch hbatch hgone => ?_⟩
  · have hmem : row ∈ t.rowsOf row.project := List.mem_filter.mpr ⟨hrow, by simp⟩
    rw [hstored] at hmem
    obtain ⟨batch, hbatch, hrow⟩ := List.mem_flatMap.mp hmem
    exact ⟨batch, (mem_upTo.mp hbatch).1, hrow⟩
  · rw [hrows project batch hbatch]
    split
    · exact Or.inr rfl
    · exact Or.inl rfl
  · refine hcursor project batch hbatch (not_lt.mp fun hlt => ?_)
    have hpending : batch ∈ (s.reader project).pending := by
      rw [(hreader project).pending]
      exact mem_past.mpr ⟨hbatch, hlt⟩
    rw [holds_of_mem_pendingBatches _ _ _ batch hpending] at hgone
    simp at hgone

/-- Every Span of every readable Transaction is stored at most once, and so is its segment in
trace_index: exactly once when its batch is behind the cursor or gone from Pebble. A recorded range
is read again just as it was recorded. -/
structure StoredOnce (lib : Library) (size : List Transaction → ℕ) (s : System L) : Prop where
  /-- A Project's batches have distinct ids. -/
  ids : ∀ project, (s.historyOf project).Pairwise fun a b => a.id < b.id
  spans : TableOnce s s.spans (spansOfBatch lib)
  traceIndex : TableOnce s s.traceIndex (segmentsOfBatch lib)
  /-- While the recorded id is past the cursor, an attempt reads the recorded range. -/
  again : ∀ project, s.cursor project < s.recorded project → ∃ range,
    s.recording project = some range ∧
      readAttempt size s.pebble.writer project = some ⟨project, range, true⟩
  /-- A Transaction that can't be read is skipped, and leaves the others of its batch. -/
  skips : ∀ id before after transaction error, spansOf lib transaction = .error error →
    spansOfBatch lib ⟨id, before ++ transaction :: after⟩ =
      spansOfBatch lib ⟨id, before ++ after⟩

/-- Span processing stores each Span exactly once over every run of writes, attempts, failures and
crashes in which no write finds the id floor at its limit. -/
theorem spans_storedOnce (lib : Library) (size : List Transaction → ℕ) (s : System L)
    (hrun : Reaches (System.step lib size) System.writesHaveRoom System.init s) :
    StoredOnce lib size s := by
  have hview := (SpanInv.of_reaches hrun).view
  refine ⟨fun project => (hview.reader project).increasing,
    TableOnce.of_ledger hview.reader hview.spans,
    TableOnce.of_ledger hview.reader hview.traceIndex, fun project hlt => ?_,
    fun id before after transaction error => spansOfBatch_skip lib id before after transaction error⟩
  obtain ⟨range, hrecording, -⟩ := (hview.reader project).recorded hlt
  refine ⟨range, hrecording, ?_⟩
  rw [s.readAttempt_eq, (hview.reader project).next_of_held
    (RangeReader.State.held_of_lt hlt hrecording)]
  rfl

instance (s : System L) (a : Action L) : Decidable (s.writesHaveRoom a) :=
  match a with
  | .writeTransactionBatch _ _ receivedAt random =>
    inferInstanceAs (Decidable (BatchRun.hasRoom s.pebble.writer.logBatchFloor random receivedAt))
  | .writeLogBatch _ _ receivedAt random =>
    inferInstanceAs (Decidable (BatchRun.hasRoom s.pebble.writer.logBatchFloor random receivedAt))
  | .recordLogInsert .. | .setLogProcessingCursor .. | .deleteLogBatchesUpTo .. | .stopWrites
  | .read .. | .record .. | .insertSpans .. | .insertTraceIndex .. | .moveCursor ..
  | .deleteBatches .. | .crash => isTrue trivial

/-- A Transaction of one segment, from the first second to the second, as it was sent. -/
def oneSegment : Transaction where
  sampleRate := 1
  payload := ("\x7b\"transaction\":\"GET /\",\"transaction_info\":\x7b\"source\":\"route\"\x7d," ++
    "\"start_timestamp\":1,\"timestamp\":2," ++
    "\"contexts\":\x7b\"trace\":\x7b\"trace_id\":\"a\",\"span_id\":\"b\"\x7d\x7d\x7d").toUTF8.toList

/-- A Transaction whose payload is no JSON. -/
def notJSON : Transaction := ⟨1, "x".toUTF8.toList⟩

/-- What the standard library does on these two. -/
def smallLibrary : Library where
  unmarshalTransaction payload :=
    if payload.head? = some 123 then .ok {
      transaction := "GET /"
      source := "route"
      startTimestamp := [49]
      timestamp := [50]
      environment := ""
      release := ""
      serverName := ""
      tags := []
      trace := ⟨"a", "b", "", "", "", "", [], [], [], []⟩
      spans := [] }
    else .error "invalid character 'x' looking for beginning of value"
  unmarshalString _ := .error "unexpected end of JSON input"
  unmarshalMap _ := .error "unexpected end of JSON input"
  parseRFC3339Nano _ := .error "cannot parse"
  parseSeconds raw := if raw = [49] then .ok 1000000
    else if raw = [50] then .ok 2000000 else .error "invalid syntax"
  formatTime _ := ""
  toLower s := s
  trimSpace _ := ""
  normalised description := description

/-- The length of a stored batch of short Transactions. -/
def smallSize (transactions : List Transaction) : ℕ :=
  2 + (transactions.map fun transaction => 16 + transaction.payload.length).sum

/-- A run that crashes after ClickHouse took both inserts, the second one with an error, with a
batch written meanwhile, and then stores both batches. -/
def crashBetweenInserts : List (Action ℕ) :=
  [.writeTransactionBatch 7 [oneSegment, notJSON] 1000 UUID.Nil, .read 7, .record .done,
    .insertSpans .done, .insertTraceIndex .failedAfter,
    .writeTransactionBatch 7 [notJSON, oneSegment] 900 UUID.Nil, .crash, .read 7, .record .done,
    .insertSpans .done, .insertTraceIndex .done, .moveCursor .done, .deleteBatches .failedBefore,
    .read 7, .record .done, .insertSpans .failedAfter, .read 7, .record .done, .insertSpans .done,
    .insertTraceIndex .done, .moveCursor .done, .crash]

/-- The run that crashes between its inserts is one. -/
private theorem crashBetweenInserts_runs : (Transition.run (System.step smallLibrary smallSize)
    System.writesHaveRoom System.init crashBetweenInserts).isSome = true := by decide +kernel

/-- It stores the two readable Transactions once. -/
theorem spans_storedOnce_crashBetweenInserts : ∃ s : System ℕ,
    Transition.run (System.step smallLibrary smallSize) System.writesHaveRoom System.init
      crashBetweenInserts = some s ∧
      s.spans.rows.map (fun row => row.columns.spanID) = ["b", "b"] ∧
      s.traceIndex.rows.map (fun row => row.columns.traceID) = ["a", "a"] ∧
      StoredOnce smallLibrary smallSize s := by
  have hrun := (Option.some_get crashBetweenInserts_runs).symm
  exact ⟨_, hrun, by decide +kernel, by decide +kernel,
    spans_storedOnce _ _ _ (reaches_of_run hrun)⟩

/-- The run that stores a batch whose random bits are all set, and then writes another in the same
millisecond. -/
def batchBehindCursor : List (Action ℕ) :=
  [.writeTransactionBatch 7 [oneSegment] 1000 ⟨List.replicate 16 0xff, rfl⟩, .read 7,
    .record .done, .insertSpans .done, .insertTraceIndex .done, .moveCursor .done,
    .deleteBatches .done, .writeTransactionBatch 7 [oneSegment] 1000 UUID.Nil]

/-- Without room for its id a batch is written behind the cursor, and its Spans are not stored. -/
private theorem batchBehindCursor_runs : ∃ s : System ℕ,
    Transition.run (System.step smallLibrary smallSize) (fun _ _ => True) System.init
      batchBehindCursor = some s ∧
      ∃ batch ∈ s.historyOf 7, batch.id ≤ s.cursor 7 ∧
        (s.spans.rowsOfBatch 7 batch.id).length ≠
          (batchRows (spansOfBatch smallLibrary) 7 batch).length := by
  have hruns : (Transition.run (System.step smallLibrary smallSize) (fun _ _ => True) System.init
      batchBehindCursor).any (fun s => decide (∃ batch ∈ s.historyOf 7, batch.id ≤ s.cursor 7 ∧
        (s.spans.rowsOfBatch 7 batch.id).length ≠
          (batchRows (spansOfBatch smallLibrary) 7 batch).length)) = true := by
    decide +kernel
  obtain ⟨s, hrun, hs⟩ := (Option.any_eq_true _ _).mp hruns
  exact ⟨s, hrun, of_decide_eq_true hs⟩

/-- The second batch is written behind the cursor, where it is never read: not every run stores
every Span. -/
theorem not_forall_spansStoredOnce : ¬ ∀ s : System ℕ,
    Reaches (System.step smallLibrary smallSize) (fun _ _ => True) System.init s →
      StoredOnce smallLibrary smallSize s := by
  intro h
  obtain ⟨s, hrun, batch, hbatch, hle, hlength⟩ := batchBehindCursor_runs
  have hstored := (h s (reaches_of_run hrun)).spans.cursor 7 batch hbatch hle
  exact hlength (congrArg List.length hstored)

end SolidTrace.SpanProcessing
