import SolidTrace.LogProcessing.ProjectView

/-!
# Log processing stores every Log exactly once

Every step of the machine leaves each Project's view as it is, or does to one Project's view what
the view's own operations do. So the views keep their invariant over every run whose ids increase
within each Project, whatever fails and wherever the process crashes, and ids increase as long as
no write finds the id floor at its limit.
-/

namespace SolidTrace.LogProcessing

open Storage SortedStore SortedHistory WeightedPrefix Transition

variable {L T : Type*}

namespace System

/-- A system that differs only where no view looks has the same views. -/
theorem view_congr {s t : System L T} (hhistory : t.history = s.history)
    (hbatches : t.pebble.writer.logBatches = s.pebble.writer.logBatches)
    (hcursors : t.pebble.writer.logCursors = s.pebble.writer.logCursors)
    (hinserts : t.pebble.writer.logInserts = s.pebble.writer.logInserts)
    (htokens : t.tokens = s.tokens) (htable : t.table = s.table)
    (hrecording : t.recording = s.recording) : t.view = s.view := by
  funext project
  simp only [view, historyOf, cursor, recorded, PebbleWriter.logProcessingCursor,
    PebbleWriter.recordedLogInsert, hhistory, hbatches, hcursors, hinserts, htokens, htable,
    hrecording]

/-- The keys of a Project's pending batches are the ids pending in its view. -/
theorem id_mem_pending (s : System L T) (project : ProjectID) (e : BatchKey × List L)
    (he : e ∈ s.pebble.writer.logBatches.entries)
    (hafter : keysAfter project (s.cursor project) e.1 = true) :
    ∃ batch ∈ (s.view project).pending, batch.id = e.1.id :=
  ⟨⟨e.1.id, e.2⟩, List.mem_map.mpr ⟨e, (Store.mem_range _ _ _).mpr ⟨he, hafter⟩, rfl⟩, rfl⟩

/-- A batch past a cursor is pending whatever Project's batches come after it. -/
theorem keysAfter_eq_true {project : ProjectID} {after id : UUID} (hlt : after < id) :
    keysAfter project after ⟨project, id⟩ = true := by
  simp [keysAfter, hlt]

/-- An accepted write appends its batch to its Project's view, and leaves the others. -/
theorem view_writeLogBatch {transform : ProjectID → UUID → L → Option L} (s : System L T)
    (project : ProjectID) (logs : List L) (receivedAt : ℤ) (random : UUID)
    (w : PebbleWriter L T)
    (hw : s.pebble.writer.writeLogBatch project logs receivedAt random = .ok w)
    (hinv : (s.view project).Inv transform project) (hnil : UUID.Nil < w.logBatchFloor)
    (hids : ∀ batch ∈ s.historyOf project, batch.id < w.logBatchFloor) (other : ProjectID) :
    (s.writeLogBatch project logs receivedAt random).view other =
      if other = project then (s.view other).append ⟨w.logBatchFloor, logs⟩ else s.view other := by
  have hsystem : s.writeLogBatch project logs receivedAt random = { s with
      pebble := ⟨w, s.pebble.issued ++ [w.logBatchFloor]⟩
      history := s.history ++ [(project, ⟨w.logBatchFloor, logs⟩)] } := by
    rw [System.writeLogBatch, hw]
  rw [PebbleWriter.writeLogBatch] at hw
  split at hw
  · simp at hw
  obtain rfl := Except.ok.inj hw
  have hcursor : s.cursor project < _ := hinv.lt_of_forall_lt hnil hids
  rw [hsystem]
  by_cases hother : other = project
  · subst hother
    rw [if_pos rfl]
    have hlt : ∀ e ∈ s.pebble.writer.logBatches.entries,
        keysAfter other (s.cursor other) e.1 = true → e.1 < (⟨other,
          PebbleWriter.drawBatchID s.pebble.writer.logBatchFloor random receivedAt⟩ : BatchKey) := by
      intro e he hafter
      obtain ⟨batch, hbatch, hid⟩ := s.id_mem_pending other e he hafter
      rw [hinv.pending] at hbatch
      refine (BatchKey.lt_iff_id_lt _ _ ?_).mpr (hid ▸ hids batch (mem_past.mp hbatch).1)
      simp only [keysAfter, Bool.and_eq_true, decide_eq_true_eq] at hafter
      exact hafter.1
    have hrange := Store.range_set_of_lt s.pebble.writer.logBatches
      (keysAfter other (s.cursor other)) _ logs hlt (keysAfter_eq_true hcursor)
    refine View.ext ?_ ?_ rfl rfl rfl rfl rfl
    · simp [view, historyOf, View.append, List.filter_append]
    · change toBatches (Store.range _ (keysAfter other (s.cursor other))) = _
      rw [hrange, toBatches, List.map_append]
      rfl
  · rw [if_neg hother]
    have hne : project ≠ other := Ne.symm hother
    have hrange := Store.range_set_of_not s.pebble.writer.logBatches
      (keysAfter other (s.cursor other))
      ⟨project, PebbleWriter.drawBatchID s.pebble.writer.logBatchFloor random receivedAt⟩ logs
      (by simp [keysAfter, hne])
    refine View.ext ?_ ?_ rfl rfl rfl rfl rfl
    · simp [view, historyOf, List.filter_append, hne]
    · change toBatches (Store.range _ (keysAfter other (s.cursor other))) = _
      rw [hrange]
      rfl

/-- Recording an attempt's range records it in its Project's view. -/
theorem view_recordLogInsert (s : System L T) (attempt : Attempt L) (other : ProjectID) :
    (s.recordLogInsert attempt).view other =
      if other = attempt.project then (s.view other).record attempt.range else s.view other := by
  by_cases hother : other = attempt.project
  · subst hother
    rw [if_pos rfl]
    refine View.ext rfl rfl rfl ?_ ?_ rfl rfl
    · simp [view, recorded, recordLogInsert, PebbleWriter.recordLogInsert,
        PebbleWriter.recordedLogInsert, View.record]
    · simp [view, recordLogInsert, View.record]
  · rw [if_neg hother]
    refine View.ext rfl rfl rfl ?_ ?_ rfl rfl
    · simp [view, recorded, recordLogInsert, PebbleWriter.recordLogInsert,
        PebbleWriter.recordedLogInsert, Store.get?_set_of_ne _ _ hother]
    · simp [view, recordLogInsert, Function.update_of_ne hother]

/-- Whether a token is taken shows in its Project's view. -/
theorem mem_view_tokens (s : System L T) (project : ProjectID) (after upTo : UUID) :
    (after, upTo) ∈ (s.view project).tokens ↔ (⟨project, after, upTo⟩ : Token) ∈ s.tokens := by
  simp only [view, List.mem_map, List.mem_filter, decide_eq_true_eq, Prod.mk.injEq]
  constructor
  · rintro ⟨token, ⟨htoken, rfl⟩, rfl, rfl⟩
    exact htoken
  · intro htoken
    exact ⟨_, ⟨htoken, rfl⟩, rfl, rfl⟩

/-- Inserting an attempt's transformed batches inserts its range in its Project's view. -/
theorem view_insertLogBatches (transform : ProjectID → UUID → L → Option L) (s : System L T)
    (attempt : Attempt L) (other : ProjectID) :
    (s.insertLogBatches attempt
        (applyTransform transform attempt.project attempt.range.items)).view other =
      if other = attempt.project then (s.view other).insert transform other attempt.range
      else s.view other := by
  have hproject : ∀ row ∈ attempt.range.items.flatMap (batchRows transform attempt.project),
      row.project = attempt.project := by
    intro row hrow
    obtain ⟨batch, _, hrow⟩ := List.mem_flatMap.mp hrow
    obtain ⟨log, _, rfl⟩ := List.mem_map.mp hrow
    rfl
  rw [insertLogBatches, logRows_applyTransform, View.insert, Ledger.State.insert]
  simp only [View.ledger, mem_view_tokens]
  by_cases hother : other = attempt.project
  · subst hother
    simp only [if_true]
    split
    · rfl
    · refine View.ext rfl rfl rfl rfl rfl ?_ ?_
      · simp [view]
      · simp only [view, List.filter_append, List.append_cancel_left_eq]
        exact List.filter_eq_self.mpr fun row hrow => by simpa using hproject row hrow
  · simp only [if_neg hother]
    split
    · rfl
    · refine View.ext rfl rfl rfl rfl rfl ?_ ?_
      · simp [view, Ne.symm hother]
      · simp only [view, List.filter_append, List.append_right_eq_self]
        refine List.filter_eq_nil_iff.mpr fun row hrow => ?_
        simpa [hproject row hrow] using Ne.symm hother

/-- Moving the cursor past an attempt's range moves it in its Project's view. -/
theorem view_setLogProcessingCursor (s : System L T) (attempt : Attempt L)
    (hforward : s.cursor attempt.project < attempt.range.upTo) (other : ProjectID) :
    (s.setLogProcessingCursor attempt).view other =
      if other = attempt.project then (s.view other).move attempt.range else s.view other := by
  by_cases hother : other = attempt.project
  · subst hother
    rw [if_pos rfl]
    have hcursor : (s.setLogProcessingCursor attempt).cursor attempt.project =
        attempt.range.upTo := by
      simp [cursor, setLogProcessingCursor, PebbleWriter.setLogProcessingCursor,
        PebbleWriter.logProcessingCursor]
    refine View.ext rfl ?_ hcursor rfl rfl rfl rfl
    change toBatches (s.pebble.writer.logBatches.range (keysAfter attempt.project
        ((s.setLogProcessingCursor attempt).cursor attempt.project))) =
      past Batch.id (toBatches (s.pebble.writer.logBatches.range
        (keysAfter attempt.project (s.cursor attempt.project)))) attempt.range.upTo
    rw [hcursor, past, toBatches, toBatches, List.filter_map, Store.range, Store.range,
      List.filter_filter]
    congr 1
    refine List.filter_congr fun e _ => ?_
    have hnil : attempt.range.upTo ≠ UUID.Nil := by
      intro hnil
      exact absurd (hnil ▸ hforward) (UUID.Nil_le _).not_gt
    by_cases hlt : attempt.range.upTo < e.1.id
    · simp [keysAfter, hlt, hforward.trans hlt]
    · simp [keysAfter, hlt, hnil]
  · rw [if_neg hother]
    have hcursor : (s.setLogProcessingCursor attempt).cursor other = s.cursor other := by
      simp [cursor, setLogProcessingCursor, PebbleWriter.setLogProcessingCursor,
        PebbleWriter.logProcessingCursor, Store.get?_set_of_ne _ _ hother]
    refine View.ext rfl ?_ hcursor rfl rfl rfl rfl
    change toBatches (s.pebble.writer.logBatches.range (keysAfter other
      ((s.setLogProcessingCursor attempt).cursor other))) = _
    rw [hcursor]
    rfl

/-- Deleting batches that no view has pending leaves every view. -/
theorem view_deleteRange (s : System L T) (t : System L T) (deleted : BatchKey → Bool)
    (hhistory : t.history = s.history)
    (hbatches : t.pebble.writer.logBatches = s.pebble.writer.logBatches.deleteRange deleted)
    (hcursors : t.pebble.writer.logCursors = s.pebble.writer.logCursors)
    (hinserts : t.pebble.writer.logInserts = s.pebble.writer.logInserts)
    (htokens : t.tokens = s.tokens) (htable : t.table = s.table)
    (hrecording : t.recording = s.recording)
    (hdeleted : ∀ key, deleted key = true → s.cursor key.project ≠ UUID.Nil ∧
      key.id ≤ s.cursor key.project) : t.view = s.view := by
  funext project
  have hcursor : t.cursor project = s.cursor project := by
    simp only [cursor, PebbleWriter.logProcessingCursor, hcursors]
  refine View.ext ?_ ?_ hcursor ?_ ?_ ?_ ?_
  · simp only [view, historyOf, hhistory]
  · change toBatches (t.pebble.writer.logBatches.range (keysAfter project (t.cursor project))) = _
    rw [hcursor, hbatches, Store.range_deleteRange_of_disjoint]
    · rfl
    · intro key hafter
      by_contra hkey
      obtain ⟨hnil, hle⟩ := hdeleted key (by simpa using hkey)
      simp only [keysAfter, Bool.and_eq_true, decide_eq_true_eq, Bool.or_eq_true] at hafter
      obtain ⟨rfl, hafter⟩ := hafter
      exact absurd (hafter.resolve_left hnil) hle.not_gt
  · simp only [view, recorded, PebbleWriter.recordedLogInsert, hinserts]
  · simp only [view, hrecording]
  · simp only [view, htokens]
  · simp only [view, htable]

end System

/-- The attempt's range is the recorded one, past the cursor. -/
def Attempt.Held (view : ProjectID → View L) (attempt : Attempt L) : Prop :=
  (view attempt.project).cursor < (view attempt.project).recorded ∧
    (view attempt.project).recording = some attempt.range

/-- What holds of an attempt in each phase. -/
def Phase.Inv (transform : ProjectID → UUID → L → Option L) (view : ProjectID → View L) : Phase L → Prop
  | .idle => True
  | .read attempt => attempt.range.after = (view attempt.project).cursor ∧
      ReadRange (view attempt.project).history attempt.range ∧
      if attempt.again then attempt.Held view
      else (view attempt.project).recorded ≤ (view attempt.project).cursor
  | .recorded attempt => attempt.Held view
  | .transformed attempt kept => attempt.Held view ∧
      kept = applyTransform transform attempt.project attempt.range.items
  | .inserted attempt => attempt.Held view ∧ (view attempt.project).ledger.Stored
      (batchRows transform attempt.project) attempt.range
  | .moved attempt => (view attempt.project).cursor = attempt.range.upTo ∧
      UUID.Nil < (view attempt.project).cursor

/-- A batch written past its Project's batches leaves an attempt as it is. -/
theorem Phase.Inv.append {transform : ProjectID → UUID → L → Option L} {view view' : ProjectID → View L}
    {phase : Phase L} (hinv : phase.Inv transform view) (project : ProjectID) (batch : Batch L)
    (hview : ∀ other, view' other =
      if other = project then (view other).append batch else view other)
    (hbatch : ∀ earlier ∈ (view project).history, earlier.id < batch.id) :
    phase.Inv transform view' := by
  have hcursor : ∀ other, (view' other).cursor = (view other).cursor := by
    intro other
    rw [hview]
    split <;> rfl
  have hrecorded : ∀ other, (view' other).recorded = (view other).recorded := by
    intro other
    rw [hview]
    split <;> rfl
  have hheld : ∀ attempt : Attempt L, attempt.Held view' ↔ attempt.Held view := by
    intro attempt
    rw [Attempt.Held, Attempt.Held, hcursor, hrecorded, hview]
    split <;> rfl
  cases phase with
  | idle => trivial
  | read attempt =>
    obtain ⟨hafter, hread, hagain⟩ := hinv
    refine ⟨hafter.trans (hcursor _).symm, ?_, ?_⟩
    · rw [hview]
      split
      · rename_i hproject
        obtain ⟨last, hlast, hid⟩ := hread.exists_upTo
        exact hread.append batch (hid ▸ hbatch last (hproject ▸ hlast))
      · exact hread
    · rw [hheld, hcursor, hrecorded]
      exact hagain
  | recorded attempt => exact (hheld attempt).mpr hinv
  | transformed attempt kept => exact ⟨(hheld attempt).mpr hinv.1, hinv.2⟩
  | inserted attempt =>
    refine ⟨(hheld attempt).mpr hinv.1, ?_⟩
    rw [hview]
    split <;> exact hinv.2
  | moved attempt =>
    rw [Phase.Inv, hcursor]
    exact hinv

/-- What ties Pebble, ClickHouse and the worker over every run whose ids increase. -/
structure LogInv (transform : ProjectID → UUID → L → Option L) (s : System L T) : Prop where
  version : BatchRun.VersionInv s.pebble.writer
  view : ∀ project, (s.view project).Inv transform project
  worker : s.worker.Inv transform s.view

/-- Nothing is stored of nothing. -/
theorem LogInv.init (transform : ProjectID → UUID → L → Option L) :
    LogInv transform (System.init : System L T) where
  version := BatchRun.VersionInv.new
  view := fun project =>
    { ledger := Ledger.State.Inv.empty UUID.Nil
      pos := by simp [System.view, System.historyOf, System.init]
      cursor_mem := Or.inl rfl
      pending := rfl
      recorded := fun hlt => absurd hlt (lt_irrefl UUID.Nil) }
  worker := trivial

/-- A pending batch is in Pebble. -/
theorem System.holds_of_mem_pending (s : System L T) (project : ProjectID) (batch : Batch L)
    (hbatch : batch ∈ (s.view project).pending) :
    BatchRun.holds s.pebble.writer.logBatches project batch.id = true := by
  obtain ⟨e, he, rfl⟩ := List.mem_map.mp hbatch
  obtain ⟨hmem, hafter⟩ := (Store.mem_range _ _ _).mp he
  simp only [keysAfter, Bool.and_eq_true, decide_eq_true_eq] at hafter
  exact List.any_eq_true.mpr ⟨e, hmem, by simp [hafter.1]⟩

/-- The last batch of a held range is in Pebble and past the cursor. -/
theorem Attempt.Held.holds_upTo {transform : ProjectID → UUID → L → Option L} {s : System L T}
    {attempt : Attempt L} (hheld : attempt.Held s.view)
    (hinv : (s.view attempt.project).Inv transform attempt.project) :
    BatchRun.holds s.pebble.writer.logBatches attempt.project attempt.range.upTo = true ∧
      s.cursor attempt.project < attempt.range.upTo := by
  obtain ⟨hlt, hrecording⟩ := hheld
  obtain ⟨range, hrange, hafter, hupTo, hread⟩ := hinv.recorded hlt
  obtain rfl := Option.some.inj (hrecording.symm.trans hrange)
  have hforward : (s.view attempt.project).cursor < attempt.range.upTo := hupTo ▸ hlt
  obtain ⟨batch, hbatch, hid⟩ := hread.exists_upTo
  refine ⟨?_, hforward⟩
  rw [← hid]
  refine s.holds_of_mem_pending attempt.project batch ?_
  rw [hinv.pending]
  exact mem_past.mpr ⟨hbatch, hid ▸ hforward⟩

/-- How a write ends leaves Pebble as it was or as it was written. -/
theorem System.settle_pebble (s written : System L T) (next : Phase L) (outcome : Outcome) :
    (s.settle written next outcome).pebble = s.pebble ∨
      (s.settle written next outcome).pebble = written.pebble := by
  cases outcome
  · exact Or.inr rfl
  · exact Or.inr rfl
  · exact Or.inl rfl

/-- An insert leaves Pebble. -/
theorem System.insertLogBatches_pebble (s : System L T) (attempt : Attempt L)
    (kept : List (Batch L)) : (s.insertLogBatches attempt kept).pebble = s.pebble := by
  rw [System.insertLogBatches]
  split <;> rfl

/-- Every step of Log processing is a step of the batch store, or leaves it. -/
theorem LogInv.pebble_step {transform : ProjectID → UUID → L → Option L} {s t : System L T}
    {a : Action L T} (hinv : LogInv transform s) (hstep : s.step transform a = some t) :
    t.pebble = s.pebble ∨ ∃ b, s.pebble.step b = some t.pebble ∧
      (s.writesHaveRoom a → s.pebble.writesHaveRoom b) := by
  have hsettle : ∀ (written : System L T) (next : Phase L) (outcome : Outcome)
      (b : BatchAction L T), s.pebble.step b = some written.pebble → s.pebble.writesHaveRoom b →
      t = s.settle written next outcome →
      t.pebble = s.pebble ∨ ∃ b, s.pebble.step b = some t.pebble ∧
        (s.writesHaveRoom a → s.pebble.writesHaveRoom b) := by
    rintro written next outcome b hb hroom rfl
    rcases s.settle_pebble written next outcome with h | h
    · exact Or.inl h
    · exact Or.inr ⟨b, h ▸ hb, fun _ => hroom⟩
  have hmap : ∀ b : BatchAction L T,
      ((s.pebble.step b).map fun pebble => { s with pebble }) = some t →
      (s.writesHaveRoom a → s.pebble.writesHaveRoom b) →
      t.pebble = s.pebble ∨ ∃ b, s.pebble.step b = some t.pebble ∧
        (s.writesHaveRoom a → s.pebble.writesHaveRoom b) := by
    intro b hb hroom
    obtain ⟨pebble, hpebble, rfl⟩ := Option.map_eq_some_iff.mp hb
    exact Or.inr ⟨b, hpebble, hroom⟩
  cases a with
  | writeLogBatch project logs receivedAt random =>
    obtain rfl := Option.some.inj hstep
    refine Or.inr ⟨.writeLogBatch project logs receivedAt random, ?_, fun hroom => hroom⟩
    rw [BatchRun.step, System.writeLogBatch]
    cases s.pebble.writer.writeLogBatch project logs receivedAt random <;> rfl
  | writeTransactionBatch project transactions receivedAt random =>
    exact hmap (.writeTransactionBatch project transactions receivedAt random) hstep
      fun hroom => hroom
  | recordSpanInsert project upTo => exact hmap (.recordSpanInsert project upTo) hstep fun _ => trivial
  | setSpanProcessingCursor project cursor =>
    exact hmap (.setSpanProcessingCursor project cursor) hstep fun _ => trivial
  | deleteTransactionBatchesUpTo project upTo =>
    exact hmap (.deleteTransactionBatchesUpTo project upTo) hstep fun _ => trivial
  | stopWrites => exact hmap .stopWrites hstep fun _ => trivial
  | read project =>
    rw [System.step] at hstep
    split at hstep
    · split at hstep <;> (obtain rfl := Option.some.inj hstep; exact Or.inl rfl)
    · simp at hstep
  | record outcome =>
    rw [System.step] at hstep
    split at hstep
    · rename_i attempt _
      split at hstep
      · obtain rfl := Option.some.inj hstep
        exact Or.inl rfl
      · exact hsettle _ _ _ (.recordLogInsert attempt.project attempt.range.upTo) rfl trivial
          (Option.some.inj hstep).symm
    · simp at hstep
  | transform succeeds =>
    rw [System.step] at hstep
    split at hstep
    · split at hstep <;> (obtain rfl := Option.some.inj hstep; exact Or.inl rfl)
    · simp at hstep
  | insert outcome =>
    rw [System.step] at hstep
    split at hstep
    · rename_i attempt kept _
      obtain rfl := Option.some.inj hstep
      rcases s.settle_pebble (s.insertLogBatches attempt kept) (.inserted attempt) outcome with h | h
      · exact Or.inl h
      · exact Or.inl (h.trans (s.insertLogBatches_pebble attempt kept))
    · simp at hstep
  | moveCursor outcome =>
    rw [System.step] at hstep
    split at hstep
    · rename_i attempt hworker
      have hphase := hinv.worker
      rw [hworker] at hphase
      refine hsettle _ _ _ (.setLogProcessingCursor attempt.project attempt.range.upTo) ?_ trivial
        (Option.some.inj hstep).symm
      rw [BatchRun.step]
      exact if_pos (hphase.1.holds_upTo (hinv.view attempt.project))
    · simp at hstep
  | deleteBatches outcome =>
    rw [System.step] at hstep
    split at hstep
    · rename_i attempt hworker
      have hphase := hinv.worker
      rw [hworker] at hphase
      refine hsettle _ _ _ (.deleteLogBatchesUpTo attempt.project attempt.range.upTo) ?_ trivial
        (Option.some.inj hstep).symm
      rw [BatchRun.step]
      exact if_pos hphase.1.symm.le
    · simp at hstep
  | crash =>
    obtain rfl := Option.some.inj hstep
    exact Or.inr ⟨.restart, rfl, fun _ => trivial⟩

/-- Transaction writes and Span processing leave the Log batches, cursors and records. -/
theorem BatchRun.step_leaves_logs {s t : BatchRun L T} {b : BatchAction L T}
    (hb : b matches .writeTransactionBatch .. | .recordSpanInsert .. | .setSpanProcessingCursor ..
      | .deleteTransactionBatchesUpTo .. | .stopWrites) (hstep : s.step b = some t) :
    t.writer.logBatches = s.writer.logBatches ∧ t.writer.logCursors = s.writer.logCursors ∧
      t.writer.logInserts = s.writer.logInserts := by
  cases b with
  | writeTransactionBatch project transactions receivedAt random =>
    obtain rfl := Option.some.inj hstep
    rw [PebbleWriter.writeTransactionBatch]
    split <;> exact ⟨rfl, rfl, rfl⟩
  | recordSpanInsert project upTo =>
    obtain rfl := Option.some.inj hstep
    exact ⟨rfl, rfl, rfl⟩
  | setSpanProcessingCursor project cursor =>
    obtain rfl := Option.some.inj (Option.ite_none_right_eq_some.mp hstep).2
    exact ⟨rfl, rfl, rfl⟩
  | deleteTransactionBatchesUpTo project upTo =>
    obtain rfl := Option.some.inj (Option.ite_none_right_eq_some.mp hstep).2
    exact ⟨rfl, rfl, rfl⟩
  | stopWrites =>
    obtain rfl := Option.some.inj hstep
    exact ⟨rfl, rfl, rfl⟩
  | writeLogBatch | recordLogInsert | setLogProcessingCursor | deleteLogBatchesUpTo | restart =>
    simp at hb

namespace LogInv

variable {transform : ProjectID → UUID → L → Option L} {s : System L T}

/-- A change of the worker alone keeps the invariant when the new phase's part holds. -/
theorem setWorker (hinv : LogInv transform s) (worker : Phase L)
    (hworker : worker.Inv transform s.view) : LogInv transform { s with worker } :=
  ⟨hinv.version, hinv.view, hworker⟩

/-- A step that no view sees keeps the invariant. -/
theorem of_view_eq (hinv : LogInv transform s) {t : System L T} (hview : t.view = s.view)
    (hversion : BatchRun.VersionInv t.pebble.writer) (hworker : t.worker.Inv transform s.view) :
    LogInv transform t :=
  ⟨hversion, fun project => hview ▸ hinv.view project, hview ▸ hworker⟩

/-- A write's outcome keeps the invariant when the written state's views do, and with them the next
phase. -/
theorem settle (hinv : LogInv transform s) (written : System L T) (next : Phase L)
    (hversion : BatchRun.VersionInv written.pebble.writer)
    (hview : ∀ project, (written.view project).Inv transform project)
    (hnext : next.Inv transform written.view) (outcome : Outcome) :
    LogInv transform (s.settle written next outcome) := by
  cases outcome with
  | done => exact ⟨hversion, hview, hnext⟩
  | failedAfter => exact ⟨hversion, hview, trivial⟩
  | failedBefore => exact hinv.setWorker .idle trivial

/-- A Log batch written past its Project's batches keeps the invariant. -/
theorem writeLogBatch (hinv : LogInv transform s) (project : ProjectID) (logs : List L)
    (receivedAt : ℤ) (random : UUID)
    (hids : s.idsIncrease (.writeLogBatch project logs receivedAt random : Action L T)) :
    LogInv transform (s.writeLogBatch project logs receivedAt random) := by
  have hversion7 := BatchRun.drawBatchID_version7 _ random receivedAt hinv.version.floor
  cases hw : s.pebble.writer.writeLogBatch project logs receivedAt random with
  | error e =>
    rw [System.writeLogBatch, hw]
    exact hinv
  | ok w =>
    have hfloor : w.logBatchFloor =
        PebbleWriter.drawBatchID s.pebble.writer.logBatchFloor random receivedAt :=
      (BatchRun.HandsOut.log project logs w hw).eq_drawBatchID
    have hnil : UUID.Nil < w.logBatchFloor := hfloor ▸ Nil_lt_of_version _ hversion7.1
    have hlt : ∀ batch ∈ s.historyOf project, batch.id < w.logBatchFloor := hfloor ▸ hids
    have hview := s.view_writeLogBatch project logs receivedAt random w hw (hinv.view project)
      hnil hlt
    have hstep : s.pebble.step (.writeLogBatch project logs receivedAt random) =
        some (s.writeLogBatch project logs receivedAt random).pebble := by
      simp only [BatchRun.step, System.writeLogBatch, hw, BatchRun.written]
    refine ⟨hinv.version.step hstep, fun other => ?_, ?_⟩
    · rw [hview other]
      split
      · rename_i hother
        subst hother
        exact (hinv.view other).append _ hnil hlt
      · exact hinv.view other
    · have hworker : (s.writeLogBatch project logs receivedAt random).worker = s.worker := by
        rw [System.writeLogBatch, hw]
      exact hworker ▸ hinv.worker.append project ⟨w.logBatchFloor, logs⟩ hview hlt

/-- A step of the batch store that leaves the Log batches, cursors and records keeps the
invariant. -/
theorem pebbleStep (hinv : LogInv transform s) {t : System L T} (b : BatchAction L T)
    (hb : b matches .writeTransactionBatch .. | .recordSpanInsert .. | .setSpanProcessingCursor ..
      | .deleteTransactionBatchesUpTo .. | .stopWrites)
    (hstep : ((s.pebble.step b).map fun pebble => { s with pebble }) = some t) :
    LogInv transform t := by
  obtain ⟨pebble, hpebble, rfl⟩ := Option.map_eq_some_iff.mp hstep
  obtain ⟨hbatches, hcursors, hinserts⟩ := BatchRun.step_leaves_logs hb hpebble
  have hview : System.view { s with pebble } = s.view :=
    System.view_congr rfl hbatches hcursors hinserts rfl rfl rfl
  exact hinv.of_view_eq hview (hinv.version.step hpebble) hinv.worker

/-- Reading an attempt keeps the invariant. -/
theorem read (hinv : LogInv transform s) (project : ProjectID) (attempt : Attempt L)
    (hread : readAttempt s.pebble.writer project = some attempt) :
    LogInv transform { s with worker := .read attempt } := by
  refine hinv.setWorker _ ?_
  by_cases hlt : s.cursor project < s.recorded project
  · obtain ⟨range, hrecording, hagain⟩ := readAttempt_of_recorded s project (hinv.view project) hlt
    obtain rfl := Option.some.inj (hagain.symm.trans hread)
    obtain ⟨other, hother, hafter, _, hrange⟩ := (hinv.view project).recorded hlt
    obtain rfl := Option.some.inj (hother.symm.trans hrecording)
    exact ⟨hafter, hrange, hlt, hrecording⟩
  · obtain ⟨rfl, hagain, hafter, hrange⟩ := readAttempt_of_not_recorded s project
      (hinv.view project) (not_lt.mp hlt) attempt hread
    exact ⟨hafter, hrange, by rw [hagain]; exact not_lt.mp hlt⟩

/-- Recording a range not recorded before keeps the invariant. -/
theorem recordLogInsert (hinv : LogInv transform s) (attempt : Attempt L)
    (hworker : s.worker = .read attempt) (hagain : attempt.again = false) (outcome : Outcome) :
    LogInv transform (s.settle (s.recordLogInsert attempt) (.recorded attempt) outcome) := by
  have hphase := hinv.worker
  rw [hworker] at hphase
  obtain ⟨hafter, hrange, hle⟩ := hphase
  rw [hagain] at hle
  have hversion := hinv.version.step (t := (s.recordLogInsert attempt).pebble)
    (a := .recordLogInsert attempt.project attempt.range.upTo) rfl
  have hview := s.view_recordLogInsert attempt
  refine hinv.settle _ _ hversion (fun other => ?_) ?_ outcome
  · rw [hview]
    split
    · rename_i hother
      subst hother
      exact (hinv.view _).record attempt.range hafter hrange hle
    · exact hinv.view other
  · rw [Phase.Inv, Attempt.Held, hview, if_pos rfl]
    exact ⟨hafter ▸ hrange.isRange.nonempty, rfl⟩

/-- Inserting a held range keeps the invariant. -/
theorem insertLogBatches (hinv : LogInv transform s) (attempt : Attempt L) (kept : List (Batch L))
    (hworker : s.worker = .transformed attempt kept) (outcome : Outcome) :
    LogInv transform
      (s.settle (s.insertLogBatches attempt kept) (.inserted attempt) outcome) := by
  have hphase := hinv.worker
  rw [hworker] at hphase
  obtain ⟨hheld, rfl⟩ := hphase
  have hversion := s.insertLogBatches_pebble attempt
    (applyTransform transform attempt.project attempt.range.items) ▸ hinv.version
  have hview := s.view_insertLogBatches transform attempt
  refine hinv.settle _ _ hversion (fun other => ?_) ?_ outcome
  · rw [hview]
    split
    · rename_i hother
      subst hother
      exact (hinv.view _).insert attempt.range hheld.1 hheld.2
    · exact hinv.view other
  · rw [Phase.Inv, Attempt.Held, hview, if_pos rfl, View.ledger_insert]
    exact ⟨hheld, Ledger.State.stored_insert _ _⟩

/-- Moving the cursor past a stored range keeps the invariant. -/
theorem setLogProcessingCursor (hinv : LogInv transform s) (attempt : Attempt L)
    (hworker : s.worker = .inserted attempt) (outcome : Outcome) :
    LogInv transform (s.settle (s.setLogProcessingCursor attempt) (.moved attempt) outcome) := by
  have hphase := hinv.worker
  rw [hworker] at hphase
  obtain ⟨hheld, hstored⟩ := hphase
  obtain ⟨hholds, hforward⟩ := hheld.holds_upTo (hinv.view attempt.project)
  have hversion := hinv.version.step (t := (s.setLogProcessingCursor attempt).pebble)
    (a := .setLogProcessingCursor attempt.project attempt.range.upTo) (if_pos ⟨hholds, hforward⟩)
  have hview := s.view_setLogProcessingCursor attempt hforward
  refine hinv.settle _ _ hversion (fun other => ?_) ?_ outcome
  · rw [hview]
    split
    · rename_i hother
      subst hother
      exact (hinv.view _).move attempt.range hheld.1 hheld.2 hstored
    · exact hinv.view other
  · rw [Phase.Inv, hview, if_pos rfl]
    exact ⟨rfl, (UUID.Nil_le _).trans_lt hforward⟩

/-- Deleting the batches of a range behind the cursor keeps the invariant. -/
theorem deleteLogBatches (hinv : LogInv transform s) (attempt : Attempt L)
    (hworker : s.worker = .moved attempt) (outcome : Outcome) :
    LogInv transform (s.settle (s.deleteLogBatches attempt) .idle outcome) := by
  have hphase := hinv.worker
  rw [hworker] at hphase
  obtain ⟨hcursor, hnil⟩ := hphase
  have hview : (s.deleteLogBatches attempt).view = s.view := by
    refine s.view_deleteRange _ (keysUpTo attempt.project attempt.range.upTo) rfl rfl rfl rfl rfl
      rfl rfl fun key hkey => ?_
    simp only [keysUpTo, Bool.and_eq_true, decide_eq_true_eq] at hkey
    obtain ⟨hproject, hle⟩ := hkey
    rw [hproject]
    exact ⟨hnil.ne', hle.trans hcursor.symm.le⟩
  have hversion := hinv.version.step (t := (s.deleteLogBatches attempt).pebble)
    (a := .deleteLogBatchesUpTo attempt.project attempt.range.upTo) (if_pos hcursor.symm.le)
  exact hinv.settle _ .idle hversion (fun other => hview ▸ hinv.view other) trivial outcome

/-- A crash and the restart after it keep the invariant. -/
theorem crash (hinv : LogInv transform s) :
    LogInv transform { s with
      pebble := { s.pebble with writer := s.pebble.writer.restart }, worker := .idle } := by
  obtain ⟨floor, -, hrestart⟩ := s.pebble.writer.restart_eq
  have hversion := hinv.version.step (t := { s.pebble with writer := s.pebble.writer.restart })
    (a := .restart) rfl
  refine hinv.of_view_eq ?_ hversion trivial
  refine s.view_deleteRange _ (PebbleWriter.handled s.pebble.writer.logProcessingCursor) rfl
    (by rw [hrestart]) (by rw [hrestart]) (by rw [hrestart]) rfl rfl rfl fun key hkey => ?_
  simp only [PebbleWriter.handled, Bool.and_eq_true, decide_eq_true_eq] at hkey
  exact hkey

/-- Every step whose ids increase keeps the invariant. -/
theorem step (hinv : LogInv transform s) {t : System L T} {a : Action L T}
    (hids : s.idsIncrease a) (hstep : s.step transform a = some t) : LogInv transform t := by
  cases a with
  | writeLogBatch project logs receivedAt random =>
    obtain rfl := Option.some.inj hstep
    exact hinv.writeLogBatch project logs receivedAt random hids
  | writeTransactionBatch project transactions receivedAt random =>
    exact hinv.pebbleStep (.writeTransactionBatch project transactions receivedAt random) rfl hstep
  | recordSpanInsert project upTo => exact hinv.pebbleStep (.recordSpanInsert project upTo) rfl hstep
  | setSpanProcessingCursor project cursor =>
    exact hinv.pebbleStep (.setSpanProcessingCursor project cursor) rfl hstep
  | deleteTransactionBatchesUpTo project upTo =>
    exact hinv.pebbleStep (.deleteTransactionBatchesUpTo project upTo) rfl hstep
  | stopWrites => exact hinv.pebbleStep .stopWrites rfl hstep
  | read project =>
    rw [System.step] at hstep
    split at hstep
    · split at hstep
      · rename_i attempt hread
        obtain rfl := Option.some.inj hstep
        exact hinv.read project attempt hread
      · obtain rfl := Option.some.inj hstep
        exact hinv
    · simp at hstep
  | record outcome =>
    rw [System.step] at hstep
    split at hstep
    · rename_i attempt hworker
      split at hstep
      · rename_i hagain
        obtain rfl := Option.some.inj hstep
        have hphase := hinv.worker
        rw [hworker] at hphase
        obtain ⟨-, -, hheld⟩ := hphase
        rw [if_pos hagain] at hheld
        exact hinv.setWorker _ hheld
      · rename_i hagain
        obtain rfl := Option.some.inj hstep
        exact hinv.recordLogInsert attempt hworker (by simpa using hagain) outcome
    · simp at hstep
  | transform succeeds =>
    rw [System.step] at hstep
    split at hstep
    · rename_i attempt hworker
      have hphase := hinv.worker
      rw [hworker] at hphase
      split at hstep
      · obtain rfl := Option.some.inj hstep
        exact hinv.setWorker _ ⟨hphase, rfl⟩
      · obtain rfl := Option.some.inj hstep
        exact hinv.setWorker .idle trivial
    · simp at hstep
  | insert outcome =>
    rw [System.step] at hstep
    split at hstep
    · rename_i attempt kept hworker
      obtain rfl := Option.some.inj hstep
      exact hinv.insertLogBatches attempt kept hworker outcome
    · simp at hstep
  | moveCursor outcome =>
    rw [System.step] at hstep
    split at hstep
    · rename_i attempt hworker
      obtain rfl := Option.some.inj hstep
      exact hinv.setLogProcessingCursor attempt hworker outcome
    · simp at hstep
  | deleteBatches outcome =>
    rw [System.step] at hstep
    split at hstep
    · rename_i attempt hworker
      obtain rfl := Option.some.inj hstep
      exact hinv.deleteLogBatches attempt hworker outcome
    · simp at hstep
  | crash =>
    obtain rfl := Option.some.inj hstep
    exact hinv.crash

end LogInv

/-- A step writes a Log batch under an id just handed out, or leaves the history. -/
theorem System.step_history {transform : ProjectID → UUID → L → Option L} {s t : System L T}
    {a : Action L T} (hstep : s.step transform a = some t) :
    t.history = s.history ∨ ∃ project logs, t.history =
      s.history ++ [(project, ⟨t.pebble.writer.logBatchFloor, logs⟩)] ∧
        t.pebble.writer.logBatchFloor ∈ t.pebble.issued := by
  have hsettle : ∀ (written : System L T) (next : Phase L) (outcome : Outcome),
      written.history = s.history → (s.settle written next outcome).history = s.history := by
    intro written next outcome hwritten
    cases outcome
    · exact hwritten
    · exact hwritten
    · rfl
  cases a with
  | writeLogBatch project logs receivedAt random =>
    obtain rfl := Option.some.inj hstep
    rw [System.writeLogBatch]
    split
    · exact Or.inr ⟨project, logs, rfl, by simp⟩
    · exact Or.inl rfl
  | writeTransactionBatch | recordSpanInsert | setSpanProcessingCursor
  | deleteTransactionBatchesUpTo | stopWrites =>
    rw [System.step] at hstep
    obtain ⟨pebble, _, rfl⟩ := Option.map_eq_some_iff.mp hstep
    exact Or.inl rfl
  | read project =>
    rw [System.step] at hstep
    split at hstep
    · split at hstep <;> (obtain rfl := Option.some.inj hstep; exact Or.inl rfl)
    · simp at hstep
  | record outcome =>
    rw [System.step] at hstep
    split at hstep
    · split at hstep
      · obtain rfl := Option.some.inj hstep
        exact Or.inl rfl
      · obtain rfl := Option.some.inj hstep
        exact Or.inl (hsettle _ _ outcome rfl)
    · simp at hstep
  | transform succeeds =>
    rw [System.step] at hstep
    split at hstep
    · split at hstep <;> (obtain rfl := Option.some.inj hstep; exact Or.inl rfl)
    · simp at hstep
  | insert outcome =>
    rw [System.step] at hstep
    split at hstep
    · obtain rfl := Option.some.inj hstep
      refine Or.inl (hsettle _ _ outcome ?_)
      rw [System.insertLogBatches]
      split <;> rfl
    · simp at hstep
  | moveCursor outcome =>
    rw [System.step] at hstep
    split at hstep
    · obtain rfl := Option.some.inj hstep
      exact Or.inl (hsettle _ _ outcome rfl)
    · simp at hstep
  | deleteBatches outcome =>
    rw [System.step] at hstep
    split at hstep
    · obtain rfl := Option.some.inj hstep
      exact Or.inl (hsettle _ _ outcome rfl)
    · simp at hstep
  | crash =>
    obtain rfl := Option.some.inj hstep
    exact Or.inl rfl

/-- The invariant over runs whose writes have room: every Log batch's id was handed out, so the
ids increase. -/
structure RoomInv (transform : ProjectID → UUID → L → Option L) (s : System L T) : Prop where
  log : LogInv transform s
  ids : BatchRun.IDInv s.pebble
  issued : ∀ e ∈ s.history, e.2.id ∈ s.pebble.issued

/-- With room, the next id comes after every batch of every Project. -/
theorem RoomInv.idsIncrease {transform : ProjectID → UUID → L → Option L} {s : System L T}
    (hinv : RoomInv transform s) {a : Action L T} (hroom : s.writesHaveRoom a) :
    s.idsIncrease a := by
  cases a with
  | writeLogBatch project logs receivedAt random =>
    intro batch hbatch
    obtain ⟨e, he, rfl⟩ := List.mem_map.mp hbatch
    have hle := hinv.ids.issued_le _ (hinv.issued e (List.mem_of_mem_filter he))
    exact hle.trans_lt
      (BatchRun.drawBatchID_spec _ random receivedAt hinv.ids.version.floor hroom).1
  | writeTransactionBatch | recordSpanInsert | setSpanProcessingCursor
  | deleteTransactionBatchesUpTo | stopWrites | read | record | transform | insert | moveCursor
  | deleteBatches | crash => trivial

/-- Every step that meets the condition keeps the invariant. -/
theorem RoomInv.step {transform : ProjectID → UUID → L → Option L} {s t : System L T} {a : Action L T}
    (hinv : RoomInv transform s) (hroom : s.writesHaveRoom a)
    (hstep : s.step transform a = some t) : RoomInv transform t := by
  have hpebble : BatchRun.IDInv t.pebble ∧ ∀ id ∈ s.pebble.issued, id ∈ t.pebble.issued := by
    rcases hinv.log.pebble_step hstep with heq | ⟨b, hb, hbroom⟩
    · exact ⟨heq ▸ hinv.ids, fun id hid => heq ▸ hid⟩
    · refine ⟨hinv.ids.step (hbroom hroom) hb, fun id hid => ?_⟩
      rcases BatchRun.step_cases hb with ⟨_, _, hissues, _⟩ | hkeeps
      · rw [hissues.issued]
        exact List.mem_append_left _ hid
      · rw [hkeeps.issued]
        exact hid
  refine ⟨hinv.log.step (hinv.idsIncrease hroom) hstep, hpebble.1, fun e he => ?_⟩
  rcases System.step_history hstep with heq | ⟨project, logs, heq, hissued⟩
  · exact hpebble.2 _ (hinv.issued e (heq ▸ he))
  · rcases List.mem_append.mp (heq ▸ he) with he | he
    · exact hpebble.2 _ (hinv.issued e he)
    · exact (List.mem_singleton.mp he) ▸ hissued

/-- Every run that meets the condition keeps the invariant. -/
theorem RoomInv.of_reaches {transform : ProjectID → UUID → L → Option L} {s : System L T}
    (hrun : Reaches (System.step transform) System.writesHaveRoom System.init s) :
    RoomInv transform s :=
  hrun.invariant ⟨LogInv.init transform, BatchRun.IDInv.init, by simp [System.init]⟩
    fun _ _ _ hinv hroom hstep => hinv.step hroom hstep

/-- The rows of a Project's batch in the logs table. -/
def System.rowsOfBatch (s : System L T) (project : ProjectID) (id : UUID) : List (LogRow L) :=
  s.table.filter fun row => row.project = project ∧ row.batch = id

/-- Every Log is stored at most once, and exactly once when its batch is behind the cursor or gone
from Pebble; and a recorded range is inserted again just as it was recorded. -/
structure StoredOnce (transform : ProjectID → UUID → L → Option L) (s : System L T) : Prop where
  /-- A Project's batches have distinct ids. -/
  ids : ∀ project, (s.historyOf project).Pairwise fun a b => a.id < b.id
  /-- Every row is a Log of a written batch. -/
  written : ∀ row ∈ s.table, ∃ batch ∈ s.historyOf row.project,
    row ∈ batchRows transform row.project batch
  /-- A batch has no row yet, or the row of each of its Logs once. -/
  once : ∀ project, ∀ batch ∈ s.historyOf project, s.rowsOfBatch project batch.id = [] ∨
    s.rowsOfBatch project batch.id = batchRows transform project batch
  /-- A batch behind the cursor is stored. -/
  cursor : ∀ project, ∀ batch ∈ s.historyOf project, batch.id ≤ s.cursor project →
    s.rowsOfBatch project batch.id = batchRows transform project batch
  /-- A batch gone from Pebble is stored. -/
  deleted : ∀ project, ∀ batch ∈ s.historyOf project,
    BatchRun.holds s.pebble.writer.logBatches project batch.id = false →
    s.rowsOfBatch project batch.id = batchRows transform project batch
  /-- While the recorded id is past the cursor, an attempt stores the recorded range. -/
  again : ∀ project, s.cursor project < s.recorded project → ∃ range,
    s.recording project = some range ∧
      readAttempt s.pebble.writer project = some ⟨project, range, true⟩
  /-- The attempt that is about to insert inserts the recorded range. -/
  inserts : ∀ attempt kept, s.worker = .transformed attempt kept →
    s.recording attempt.project = some attempt.range

/-- The rows of a batch by its Project's view. -/
theorem System.rowsOfBatch_eq (s : System L T) (project : ProjectID) (id : UUID) :
    s.rowsOfBatch project id = (s.view project).stored.filter fun row => row.batch = id := by
  rw [rowsOfBatch, view, List.filter_filter]
  exact List.filter_congr fun row _ => by rw [Bool.decide_and, Bool.and_comm]

/-- The invariant gives what a batch has stored. -/
theorem LogInv.rowsOfBatch_eq {transform : ProjectID → UUID → L → Option L} {s : System L T}
    (hinv : LogInv transform s) (project : ProjectID) (batch : Batch L)
    (hbatch : batch ∈ s.historyOf project) :
    s.rowsOfBatch project batch.id =
      if batch.id ≤ (s.view project).ledger.frontier then batchRows transform project batch
      else [] := by
  have hledger := (hinv.view project).ledger
  have hstored : (s.view project).stored = (SortedHistory.upTo Batch.id (s.historyOf project)
      (s.view project).ledger.frontier).flatMap (batchRows transform project) := hledger.stored
  rw [s.rowsOfBatch_eq, hstored]
  split
  · rename_i hle
    exact Ledger.filter_flatMap_owner Batch.id _ (batch_of_mem_batchRows _ _) (hledger.increasing.filter _) batch
      (mem_upTo.mpr ⟨hbatch, hle⟩)
  · rename_i hgt
    refine Ledger.filter_flatMap_owner_of_not_mem Batch.id _ (batch_of_mem_batchRows _ _) _ _
      fun other hother => ?_
    exact ((mem_upTo.mp hother).2.trans_lt (not_le.mp hgt)).ne

/-- The invariant says that Logs are stored once. -/
theorem LogInv.storedOnce {transform : ProjectID → UUID → L → Option L} {s : System L T}
    (hinv : LogInv transform s) : StoredOnce transform s := by
  have hcursor : ∀ project, ∀ batch ∈ s.historyOf project, batch.id ≤ s.cursor project →
      s.rowsOfBatch project batch.id = batchRows transform project batch := by
    intro project batch hbatch hle
    have hfrontier : s.cursor project ≤ (s.view project).ledger.frontier :=
      (hinv.view project).ledger.cursor_le_frontier
    rw [hinv.rowsOfBatch_eq project batch hbatch, if_pos (hle.trans hfrontier)]
  refine ⟨fun project => (hinv.view project).ledger.increasing, fun row hrow => ?_,
    fun project batch hbatch => ?_, hcursor, fun project batch hbatch hgone => ?_,
    fun project hlt => readAttempt_of_recorded s project (hinv.view project) hlt,
    fun attempt kept hworker => ?_⟩
  · have hmem : row ∈ (s.view row.project).stored :=
      List.mem_filter.mpr ⟨hrow, by simp⟩
    have hstored := (hinv.view row.project).ledger.stored
    change (s.view row.project).stored = _ at hstored
    rw [hstored] at hmem
    obtain ⟨batch, hbatch, hrow⟩ := List.mem_flatMap.mp hmem
    exact ⟨batch, (mem_upTo.mp hbatch).1, hrow⟩
  · rw [hinv.rowsOfBatch_eq project batch hbatch]
    split
    · exact Or.inr rfl
    · exact Or.inl rfl
  · refine hcursor project batch hbatch (not_lt.mp fun hlt => ?_)
    have hpending : batch ∈ (s.view project).pending := by
      rw [(hinv.view project).pending]
      exact mem_past.mpr ⟨hbatch, hlt⟩
    rw [s.holds_of_mem_pending project batch hpending] at hgone
    simp at hgone
  · have hphase := hinv.worker
    rw [hworker] at hphase
    exact hphase.1.2

/-- Log processing stores each Log exactly once over every run of writes, attempts, failures and
crashes in which no write finds the id floor at its limit. -/
theorem logs_storedOnce (transform : ProjectID → UUID → L → Option L) (s : System L T)
    (hrun : Reaches (System.step transform) System.writesHaveRoom System.init s) :
    StoredOnce transform s :=
  (RoomInv.of_reaches hrun).log.storedOnce

instance (s : System L T) (a : Action L T) : Decidable (s.writesHaveRoom a) :=
  match a with
  | .writeLogBatch _ _ receivedAt random =>
    inferInstanceAs (Decidable (BatchRun.hasRoom s.pebble.writer.logBatchFloor random receivedAt))
  | .writeTransactionBatch _ _ receivedAt random =>
    inferInstanceAs (Decidable (BatchRun.hasRoom s.pebble.writer.logBatchFloor random receivedAt))
  | .recordSpanInsert .. | .setSpanProcessingCursor .. | .deleteTransactionBatchesUpTo ..
  | .stopWrites | .read .. | .record .. | .transform .. | .insert .. | .moveCursor ..
  | .deleteBatches .. | .crash => isTrue trivial

/-- A run that crashes after ClickHouse took the insert, with a batch written meanwhile, and then
stores both batches. -/
def crashAfterInsert : List (Action ℕ ℕ) :=
  [.writeLogBatch 7 [1, 2] 1000 UUID.Nil, .read 7, .record .done, .transform true,
    .insert .failedAfter, .writeLogBatch 7 [3] 900 UUID.Nil, .crash, .read 7, .record .done,
    .transform true, .insert .done, .moveCursor .done, .deleteBatches .failedBefore, .read 7,
    .record .done, .transform true, .insert .done, .moveCursor .done, .crash]

/-- The run that crashes after its insert is one. -/
private theorem crashAfterInsert_runs : (Transition.run (System.step fun _ _ log => some log)
    System.writesHaveRoom System.init crashAfterInsert).isSome = true := by decide +kernel

/-- It stores the three Logs once. -/
theorem logs_storedOnce_crashAfterInsert : ∃ s : System ℕ ℕ,
    Transition.run (System.step fun _ _ log => some log) System.writesHaveRoom System.init
      crashAfterInsert = some s ∧ s.table.map LogRow.log = [1, 2, 3] ∧
      StoredOnce (fun _ _ log => some log) s := by
  have hrun := (Option.some_get crashAfterInsert_runs).symm
  exact ⟨_, hrun, by decide +kernel, logs_storedOnce _ _ (reaches_of_run hrun)⟩

/-- A batch whose random bits are all set is stored, and the next batch of its millisecond is
written behind the cursor, where it is never read: not every run stores every Log. -/
theorem not_forall_storedOnce : ¬ ∀ (transform : ProjectID → UUID → ℕ → Option ℕ) (s : System ℕ ℕ),
    Reaches (System.step transform) (fun _ _ => True) System.init s → StoredOnce transform s := by
  intro h
  let full : UUID := ⟨List.replicate 16 0xff, rfl⟩
  have hrun : Transition.run (System.step fun _ _ log => some log) (fun _ _ => True)
      (System.init : System ℕ ℕ) [.writeLogBatch 7 [1] 1000 full, .read 7, .record .done,
        .transform true, .insert .done, .moveCursor .done, .deleteBatches .done,
        .writeLogBatch 7 [2] 1000 UUID.Nil] = some _ := rfl
  have hstored := h _ _ (reaches_of_run hrun)
  exact absurd (hstored.cursor 7 ⟨nextLogBatchID (newLogBatchID full 1000), [2]⟩ (by decide)
    (by decide)) (by decide)

end SolidTrace.LogProcessing
