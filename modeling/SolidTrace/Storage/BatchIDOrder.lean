import SolidTrace.Lib.Transition
import SolidTrace.Storage.PebbleWriter

/-!
# Batch ids over whole runs

A run of the batch store: Log and Transaction batches written at any clock readings, cursors
moved to stored batches, batches at or below a cursor deleted, and restarts. The ids handed out
increase as long as no write has to go past a floor whose random bits are all set: there the next
id wraps to below the floor.
-/

namespace SolidTrace.Storage

open SortedStore Transition

variable {L T : Type*}

/-- What ingest, processing and a restart do to the batch store. -/
inductive BatchAction (L T : Type*) where
  | writeLogBatch (project : ProjectID) (logs : List L) (receivedAt : ℤ) (random : UUID)
  | writeTransactionBatch (project : ProjectID) (transactions : List T) (receivedAt : ℤ)
      (random : UUID)
  | recordLogInsert (project : ProjectID) (upTo : UUID)
  | setLogProcessingCursor (project : ProjectID) (cursor : UUID)
  | deleteLogBatchesUpTo (project : ProjectID) (upTo : UUID)
  | recordSpanInsert (project : ProjectID) (upTo : UUID)
  | setSpanProcessingCursor (project : ProjectID) (cursor : UUID)
  | deleteTransactionBatchesUpTo (project : ProjectID) (upTo : UUID)
  | stopWrites
  | restart

/-- The batch store with the ids it has handed out, oldest first. -/
structure BatchRun (L T : Type*) where
  writer : PebbleWriter L T
  issued : List UUID

namespace BatchRun

/-- A new batch store. -/
def init : BatchRun L T := ⟨PebbleWriter.new, []⟩

/-- What a write leaves: the written store and its id, or, refused, the store as it was. -/
def written (s : BatchRun L T) : Except WriteError (PebbleWriter L T) → BatchRun L T
  | .ok w => ⟨w, s.issued ++ [w.logBatchFloor]⟩
  | .error _ => s

/-- A keyspace holds a batch. -/
def holds {α : Type*} (batches : Store BatchKey (List α)) (project : ProjectID) (id : UUID) : Bool :=
  batches.entries.any fun e => e.1.project = project && e.1.id = id

/-- One action. Processing moves a cursor forward to a stored batch, and deletes no batch past
the cursor. -/
def step (s : BatchRun L T) : BatchAction L T → Option (BatchRun L T)
  | .writeLogBatch project logs receivedAt random =>
    some (s.written (s.writer.writeLogBatch project logs receivedAt random))
  | .writeTransactionBatch project transactions receivedAt random =>
    some (s.written (s.writer.writeTransactionBatch project transactions receivedAt random))
  | .recordLogInsert project upTo => some { s with writer := s.writer.recordLogInsert project upTo }
  | .setLogProcessingCursor project cursor =>
    if holds s.writer.logBatches project cursor ∧ s.writer.logProcessingCursor project < cursor then
      some { s with writer := s.writer.setLogProcessingCursor project cursor }
    else none
  | .deleteLogBatchesUpTo project upTo =>
    if upTo ≤ s.writer.logProcessingCursor project then
      some { s with writer := s.writer.deleteLogBatchesUpTo project upTo }
    else none
  | .recordSpanInsert project upTo =>
    some { s with writer := s.writer.recordSpanInsert project upTo }
  | .setSpanProcessingCursor project cursor =>
    if holds s.writer.transactionBatches project cursor ∧
        s.writer.spanProcessingCursor project < cursor then
      some { s with writer := s.writer.setSpanProcessingCursor project cursor }
    else none
  | .deleteTransactionBatchesUpTo project upTo =>
    if upTo ≤ s.writer.spanProcessingCursor project then
      some { s with writer := s.writer.deleteTransactionBatchesUpTo project upTo }
    else none
  | .stopWrites => some { s with writer := s.writer.stopWrites }
  | .restart => some { s with writer := s.writer.restart }

/-- A write has room for its id: its drawn id comes after the floor, or the floor is not at the
limit of its random bits. -/
def hasRoom (floor random : UUID) (receivedAt : ℤ) : Prop :=
  floor < newLogBatchID random receivedAt ∨ floor.atLimit = false

instance (floor random : UUID) (receivedAt : ℤ) : Decidable (hasRoom floor random receivedAt) :=
  inferInstanceAs (Decidable (_ ∨ _))

/-- The action is not a write that finds the floor at its limit. -/
def writesHaveRoom (s : BatchRun L T) : BatchAction L T → Prop
  | .writeLogBatch _ _ receivedAt random => hasRoom s.writer.logBatchFloor random receivedAt
  | .writeTransactionBatch _ _ receivedAt random => hasRoom s.writer.logBatchFloor random receivedAt
  | _ => True

/-- A UUIDv7 with the RFC 9562 variant. -/
def isVersion7 (id : UUID) : Prop := id.version = 7 ∧ id.isRFC9562 = true

/-- Whatever the clock and the limit, an id drawn over a floor that is `uuid.Nil` or a UUIDv7 is a
UUIDv7. -/
theorem drawBatchID_version7 (floor random : UUID) (receivedAt : ℤ)
    (hfloor : floor = UUID.Nil ∨ isVersion7 floor) :
    isVersion7 (PebbleWriter.drawBatchID floor random receivedAt) := by
  have hversion := newLogBatchID_version random receivedAt
  rw [PebbleWriter.drawBatchID]
  split
  · rename_i hle
    have hfloor7 : isVersion7 floor := by
      refine hfloor.resolve_left ?_
      rintro rfl
      exact absurd (Nil_lt_of_version _ hversion) hle.not_gt
    exact ⟨by rw [nextLogBatchID_version, hfloor7.1], nextLogBatchID_isRFC9562 floor hfloor7.2⟩
  · exact ⟨hversion, newLogBatchID_isRFC9562 random receivedAt⟩

/-- The id a write draws, given room, comes after the floor, is a UUIDv7, and has the millisecond
of its time or of the floor. -/
theorem drawBatchID_spec (floor random : UUID) (receivedAt : ℤ)
    (hfloor : floor = UUID.Nil ∨ isVersion7 floor) (hroom : hasRoom floor random receivedAt) :
    floor < PebbleWriter.drawBatchID floor random receivedAt ∧
      isVersion7 (PebbleWriter.drawBatchID floor random receivedAt) ∧
      ((PebbleWriter.drawBatchID floor random receivedAt).milliseconds =
          uint64 receivedAt % 2 ^ 48 ∨
        (PebbleWriter.drawBatchID floor random receivedAt).milliseconds = floor.milliseconds) := by
  refine ⟨?_, drawBatchID_version7 floor random receivedAt hfloor, ?_⟩
  · rw [PebbleWriter.drawBatchID]
    split
    · rename_i hle
      have hfloor7 : isVersion7 floor := by
        refine hfloor.resolve_left ?_
        rintro rfl
        exact absurd (Nil_lt_of_version _ (newLogBatchID_version random receivedAt)) hle.not_gt
      exact (lt_nextLogBatchID_iff floor hfloor7.2).mpr (hroom.resolve_left hle.not_gt)
    · rename_i hgt
      exact not_le.mp hgt
  · rw [PebbleWriter.drawBatchID]
    split
    · exact Or.inr (nextLogBatchID_milliseconds floor)
    · exact Or.inl (newLogBatchID_milliseconds random receivedAt)

/-- An id at or below a cursor that is not `uuid.Nil` is covered by an id the store of cursors
holds. -/
theorem exists_cursor_of_le (cursors : Store ProjectID UUID) (project : ProjectID) (id : UUID)
    (hid : UUID.Nil < id) (hle : id ≤ (cursors.get? project).getD UUID.Nil) :
    ∃ seen ∈ PebbleWriter.cursorsOf cursors, id ≤ seen := by
  cases hget : cursors.get? project with
  | none =>
    rw [hget] at hle
    exact absurd hid hle.not_gt
  | some cursor =>
    rw [hget] at hle
    exact ⟨cursor, ⟨_, (Store.get?_eq_some_iff _ _ _).mp hget, rfl⟩, hle⟩

/-- Moving a cursor forward covers every id the cursors covered. -/
theorem cursorsOf_set_covers (cursors : Store ProjectID UUID) (project : ProjectID) (cursor : UUID)
    (hforward : (cursors.get? project).getD UUID.Nil < cursor) :
    ∀ id ∈ PebbleWriter.cursorsOf cursors,
      ∃ seen ∈ PebbleWriter.cursorsOf (cursors.set project cursor), id ≤ seen := by
  rintro id ⟨e, he, rfl⟩
  by_cases hproject : e.1 = project
  · refine ⟨cursor, ⟨(project, cursor), (Store.mem_set _ _ _ _).mpr (Or.inl rfl), rfl⟩, ?_⟩
    have hget : cursors.get? project = some e.2 := by
      rw [Store.get?_eq_some_iff, ← hproject]
      exact he
    rw [hget] at hforward
    exact hforward.le
  · exact ⟨e.2, ⟨e, (Store.mem_set _ _ _ _).mpr (Or.inr ⟨he, hproject⟩), rfl⟩, le_rfl⟩

/-- Moving a cursor adds at most the new cursor. -/
theorem cursorsOf_set_subset (cursors : Store ProjectID UUID) (project : ProjectID) (cursor : UUID) :
    ∀ id ∈ PebbleWriter.cursorsOf (cursors.set project cursor),
      id = cursor ∨ id ∈ PebbleWriter.cursorsOf cursors := by
  rintro id ⟨e, he, rfl⟩
  rcases (Store.mem_set _ _ _ _).mp he with rfl | ⟨he, _⟩
  · exact Or.inl rfl
  · exact Or.inr ⟨e, he, rfl⟩

/-- A write adds at most its own id, and that one. -/
theorem idsOf_set {α : Type*} (batches : Store BatchKey (List α)) (key : BatchKey)
    (items : List α) :
    (∀ id ∈ PebbleWriter.idsOf (batches.set key items).entries,
      id = key.id ∨ id ∈ PebbleWriter.idsOf batches.entries) ∧
    key.id ∈ PebbleWriter.idsOf (batches.set key items).entries := by
  constructor
  · rintro id ⟨e, he, rfl⟩
    rcases (Store.mem_set _ _ _ _).mp he with rfl | ⟨he, _⟩
    · exact Or.inl rfl
    · exact Or.inr ⟨e, he, rfl⟩
  · exact ⟨(key, items), (Store.mem_set _ _ _ _).mpr (Or.inl rfl), rfl⟩

/-- Deleting adds no id. -/
theorem idsOf_deleteRange {α : Type*} (batches : Store BatchKey (List α))
    (deleted : BatchKey → Bool) :
    ∀ id ∈ PebbleWriter.idsOf (batches.deleteRange deleted).entries,
      id ∈ PebbleWriter.idsOf batches.entries := by
  rintro id ⟨e, he, rfl⟩
  exact ⟨e, ((Store.mem_deleteRange _ _ _).mp he).1, rfl⟩

/-- Deleting batches at or below their Project's cursor leaves each deleted id covered. -/
theorem idsOf_deleteRange_covers {α : Type*} (batches : Store BatchKey (List α))
    (cursors : Store ProjectID UUID) (deleted : BatchKey → Bool)
    (hdeleted : ∀ key, deleted key = true → key.id ≤ (cursors.get? key.project).getD UUID.Nil) :
    ∀ id ∈ PebbleWriter.idsOf batches.entries, UUID.Nil < id →
      ∃ seen ∈ PebbleWriter.idsOf (batches.deleteRange deleted).entries ∪
        PebbleWriter.cursorsOf cursors, id ≤ seen := by
  rintro id ⟨e, he, rfl⟩ hnil
  cases hdel : deleted e.1 with
  | false =>
    exact ⟨e.1.id, Or.inl ⟨e, (Store.mem_deleteRange _ _ _).mpr ⟨he, hdel⟩, rfl⟩, le_rfl⟩
  | true =>
    obtain ⟨seen, hseen, hle⟩ := exists_cursor_of_le cursors e.1.project e.1.id hnil
      (hdeleted e.1 hdel)
    exact ⟨seen, Or.inr hseen, hle⟩

/-- A stored batch's id is among its keyspace's ids. -/
theorem mem_idsOf_of_holds {α : Type*} {batches : Store BatchKey (List α)} {project : ProjectID}
    {id : UUID} (hholds : holds batches project id = true) :
    id ∈ PebbleWriter.idsOf batches.entries := by
  obtain ⟨e, he, hkey⟩ := List.any_eq_true.mp hholds
  simp only [Bool.and_eq_true, decide_eq_true_eq] at hkey
  exact ⟨e, he, hkey.2⟩

/-- A step that hands out an id drawn over the floor: it becomes the floor, and a restart can see
it. -/
structure Issues (s t : BatchRun L T) (random : UUID) (receivedAt : ℤ) : Prop where
  floor : t.writer.logBatchFloor =
    PebbleWriter.drawBatchID s.writer.logBatchFloor random receivedAt
  issued : t.issued = s.issued ++ [t.writer.logBatchFloor]
  seen : ∀ id ∈ t.writer.seenIDs, id = t.writer.logBatchFloor ∨ id ∈ s.writer.seenIDs
  floor_seen : t.writer.logBatchFloor ∈ t.writer.seenIDs

/-- A step that hands out nothing: it sees no new id, loses sight of an id only behind a later one,
and keeps the floor or sets it to the greatest id seen. -/
structure Keeps (s t : BatchRun L T) : Prop where
  issued : t.issued = s.issued
  seen : ∀ id ∈ t.writer.seenIDs, id ∈ s.writer.seenIDs
  covers : ∀ id ∈ s.writer.seenIDs, UUID.Nil < id → ∃ later ∈ t.writer.seenIDs, id ≤ later
  floor : t.writer.logBatchFloor = s.writer.logBatchFloor ∨
    IsGreatest (insert UUID.Nil s.writer.seenIDs) t.writer.logBatchFloor

/-- A step that leaves every id a restart can see, and the floor. -/
private theorem Keeps.of_seenIDs_eq {s t : BatchRun L T} (hissued : t.issued = s.issued)
    (hseen : t.writer.seenIDs = s.writer.seenIDs)
    (hfloor : t.writer.logBatchFloor = s.writer.logBatchFloor) : Keeps s t where
  issued := hissued
  seen := fun _ hid => hseen ▸ hid
  covers := fun _ hid _ => ⟨_, hseen ▸ hid, le_rfl⟩
  floor := Or.inl hfloor

/-- Deleting batches at or below their cursors, with the floor kept or set to the greatest id
seen. -/
private theorem Keeps.delete (s t : BatchRun L T) (hissued : t.issued = s.issued)
    (deletedLogs deletedTransactions : BatchKey → Bool)
    (hlogs : t.writer.logBatches = s.writer.logBatches.deleteRange deletedLogs)
    (htransactions : t.writer.transactionBatches =
      s.writer.transactionBatches.deleteRange deletedTransactions)
    (hlogCursors : t.writer.logCursors = s.writer.logCursors)
    (hspanCursors : t.writer.spanCursors = s.writer.spanCursors)
    (hdeletedLogs : ∀ key, deletedLogs key = true →
      key.id ≤ s.writer.logProcessingCursor key.project)
    (hdeletedTransactions : ∀ key, deletedTransactions key = true →
      key.id ≤ s.writer.spanProcessingCursor key.project)
    (hfloor : t.writer.logBatchFloor = s.writer.logBatchFloor ∨
      IsGreatest (insert UUID.Nil s.writer.seenIDs) t.writer.logBatchFloor) : Keeps s t where
  issued := hissued
  seen := by
    intro id hid
    rw [PebbleWriter.mem_seenIDs, hlogs, htransactions, hlogCursors, hspanCursors] at hid
    rw [PebbleWriter.mem_seenIDs]
    exact hid.imp (idsOf_deleteRange _ _ id) (Or.imp_left (idsOf_deleteRange _ _ id))
  covers := by
    intro id hid hnil
    simp only [PebbleWriter.mem_seenIDs, hlogs, htransactions, hlogCursors, hspanCursors]
    rw [PebbleWriter.mem_seenIDs] at hid
    rcases hid with hid | hid | hid | hid
    · obtain ⟨seen, hseen, hle⟩ := idsOf_deleteRange_covers s.writer.logBatches
        s.writer.logCursors deletedLogs hdeletedLogs id hid hnil
      exact ⟨seen, hseen.imp_right (Or.inr ∘ Or.inl), hle⟩
    · obtain ⟨seen, hseen, hle⟩ := idsOf_deleteRange_covers s.writer.transactionBatches
        s.writer.spanCursors deletedTransactions hdeletedTransactions id hid hnil
      exact ⟨seen, Or.inr (hseen.imp_right Or.inr), hle⟩
    · exact ⟨id, Or.inr (Or.inr (Or.inl hid)), le_rfl⟩
    · exact ⟨id, Or.inr (Or.inr (Or.inr hid)), le_rfl⟩
  floor := hfloor

/-- Every action hands out an id drawn over the floor, or keeps what a restart can see. -/
theorem step_cases {s t : BatchRun L T} {a : BatchAction L T} (hstep : s.step a = some t) :
    (∃ random receivedAt, Issues s t random receivedAt ∧
      (s.writesHaveRoom a → hasRoom s.writer.logBatchFloor random receivedAt)) ∨ Keeps s t := by
  cases a with
  | writeLogBatch project logs receivedAt random =>
    obtain rfl := Option.some.inj hstep
    rw [PebbleWriter.writeLogBatch]
    split
    · exact Or.inr (Keeps.of_seenIDs_eq rfl rfl rfl)
    · obtain ⟨hsub, hnew⟩ := idsOf_set s.writer.logBatches
        ⟨project, PebbleWriter.drawBatchID s.writer.logBatchFloor random receivedAt⟩ logs
      refine Or.inl ⟨random, receivedAt, ⟨rfl, rfl, fun id hid => ?_, ?_⟩, fun hroom => hroom⟩
      · rw [PebbleWriter.mem_seenIDs] at hid ⊢
        rcases hid with hid | hid
        · exact (hsub id hid).imp_right Or.inl
        · exact Or.inr (Or.inr hid)
      · exact Or.inl (Or.inl (Or.inl hnew))
  | writeTransactionBatch project transactions receivedAt random =>
    obtain rfl := Option.some.inj hstep
    rw [PebbleWriter.writeTransactionBatch]
    split
    · exact Or.inr (Keeps.of_seenIDs_eq rfl rfl rfl)
    · obtain ⟨hsub, hnew⟩ := idsOf_set s.writer.transactionBatches
        ⟨project, PebbleWriter.drawBatchID s.writer.logBatchFloor random receivedAt⟩ transactions
      refine Or.inl ⟨random, receivedAt, ⟨rfl, rfl, fun id hid => ?_, ?_⟩, fun hroom => hroom⟩
      · rw [PebbleWriter.mem_seenIDs] at hid ⊢
        rcases hid with hid | hid | hid
        · exact Or.inr (Or.inl hid)
        · exact (hsub id hid).imp_right (Or.inr ∘ Or.inl)
        · exact Or.inr (Or.inr (Or.inr hid))
      · exact Or.inl (Or.inl (Or.inr hnew))
  | recordLogInsert project upTo =>
    obtain rfl := Option.some.inj hstep
    exact Or.inr (Keeps.of_seenIDs_eq rfl rfl rfl)
  | recordSpanInsert project upTo =>
    obtain rfl := Option.some.inj hstep
    exact Or.inr (Keeps.of_seenIDs_eq rfl rfl rfl)
  | stopWrites =>
    obtain rfl := Option.some.inj hstep
    exact Or.inr (Keeps.of_seenIDs_eq rfl rfl rfl)
  | setLogProcessingCursor project cursor =>
    obtain ⟨⟨hholds, hforward⟩, heq⟩ := Option.ite_none_right_eq_some.mp hstep
    obtain rfl := Option.some.inj heq
    refine Or.inr ⟨rfl, fun id hid => ?_, fun id hid _ => ?_, Or.inl rfl⟩
    · rw [PebbleWriter.mem_seenIDs] at hid ⊢
      rcases hid with hid | hid | hid | hid
      · exact Or.inl hid
      · exact Or.inr (Or.inl hid)
      · rcases cursorsOf_set_subset _ _ _ id hid with rfl | hid
        · exact Or.inl (mem_idsOf_of_holds hholds)
        · exact Or.inr (Or.inr (Or.inl hid))
      · exact Or.inr (Or.inr (Or.inr hid))
    · simp only [PebbleWriter.mem_seenIDs] at hid ⊢
      rcases hid with hid | hid | hid | hid
      · exact ⟨id, Or.inl hid, le_rfl⟩
      · exact ⟨id, Or.inr (Or.inl hid), le_rfl⟩
      · obtain ⟨seen, hseen, hle⟩ := cursorsOf_set_covers _ _ _ hforward id hid
        exact ⟨seen, Or.inr (Or.inr (Or.inl hseen)), hle⟩
      · exact ⟨id, Or.inr (Or.inr (Or.inr hid)), le_rfl⟩
  | setSpanProcessingCursor project cursor =>
    obtain ⟨⟨hholds, hforward⟩, heq⟩ := Option.ite_none_right_eq_some.mp hstep
    obtain rfl := Option.some.inj heq
    refine Or.inr ⟨rfl, fun id hid => ?_, fun id hid _ => ?_, Or.inl rfl⟩
    · rw [PebbleWriter.mem_seenIDs] at hid ⊢
      rcases hid with hid | hid | hid | hid
      · exact Or.inl hid
      · exact Or.inr (Or.inl hid)
      · exact Or.inr (Or.inr (Or.inl hid))
      · rcases cursorsOf_set_subset _ _ _ id hid with rfl | hid
        · exact Or.inr (Or.inl (mem_idsOf_of_holds hholds))
        · exact Or.inr (Or.inr (Or.inr hid))
    · simp only [PebbleWriter.mem_seenIDs] at hid ⊢
      rcases hid with hid | hid | hid | hid
      · exact ⟨id, Or.inl hid, le_rfl⟩
      · exact ⟨id, Or.inr (Or.inl hid), le_rfl⟩
      · exact ⟨id, Or.inr (Or.inr (Or.inl hid)), le_rfl⟩
      · obtain ⟨seen, hseen, hle⟩ := cursorsOf_set_covers _ _ _ hforward id hid
        exact ⟨seen, Or.inr (Or.inr (Or.inr hseen)), hle⟩
  | deleteLogBatchesUpTo project upTo =>
    obtain ⟨hcursor, heq⟩ := Option.ite_none_right_eq_some.mp hstep
    obtain rfl := Option.some.inj heq
    refine Or.inr (Keeps.delete _ _ rfl (keysUpTo project upTo) (fun _ => false) rfl
      (Store.deleteRange_of_forall_not _ _ (by simp)).symm rfl rfl ?_ (by simp) (Or.inl rfl))
    intro key hkey
    simp only [keysUpTo, Bool.and_eq_true, decide_eq_true_eq] at hkey
    exact hkey.1 ▸ hkey.2.trans hcursor
  | deleteTransactionBatchesUpTo project upTo =>
    obtain ⟨hcursor, heq⟩ := Option.ite_none_right_eq_some.mp hstep
    obtain rfl := Option.some.inj heq
    refine Or.inr (Keeps.delete _ _ rfl (fun _ => false) (keysUpTo project upTo)
      (Store.deleteRange_of_forall_not _ _ (by simp)).symm rfl rfl rfl (by simp) ?_ (Or.inl rfl))
    intro key hkey
    simp only [keysUpTo, Bool.and_eq_true, decide_eq_true_eq] at hkey
    exact hkey.1 ▸ hkey.2.trans hcursor
  | restart =>
    obtain rfl := Option.some.inj hstep
    obtain ⟨floor, hfloor, heq⟩ := s.writer.restart_eq
    rw [heq]
    exact Or.inr (Keeps.delete _ _ rfl (PebbleWriter.handled s.writer.logProcessingCursor)
      (PebbleWriter.handled s.writer.spanProcessingCursor) rfl rfl rfl rfl
      (fun _ => PebbleWriter.le_of_handled) (fun _ => PebbleWriter.le_of_handled) (Or.inr hfloor))

/-- The floor is `uuid.Nil` or a UUIDv7, and so is every id a restart can see. -/
structure VersionInv (w : PebbleWriter L T) : Prop where
  floor : w.logBatchFloor = UUID.Nil ∨ isVersion7 w.logBatchFloor
  seen : ∀ id ∈ w.seenIDs, isVersion7 id

/-- A new store sees nothing. -/
theorem VersionInv.new : VersionInv (PebbleWriter.new : PebbleWriter L T) where
  floor := Or.inl rfl
  seen := by
    simp [PebbleWriter.seenIDs, PebbleWriter.new, PebbleWriter.idsOf, PebbleWriter.cursorsOf]

/-- Every action keeps the version, whatever the clock and the limit. -/
theorem VersionInv.step {s t : BatchRun L T} {a : BatchAction L T} (hinv : VersionInv s.writer)
    (hstep : s.step a = some t) : VersionInv t.writer := by
  rcases step_cases hstep with ⟨random, receivedAt, hissues, _⟩ | hkeeps
  · have hfloor : isVersion7 t.writer.logBatchFloor :=
      hissues.floor ▸ drawBatchID_version7 _ random receivedAt hinv.floor
    refine ⟨Or.inr hfloor, fun id hid => ?_⟩
    rcases hissues.seen id hid with rfl | hid
    · exact hfloor
    · exact hinv.seen id hid
  · refine ⟨?_, fun id hid => hinv.seen id (hkeeps.seen id hid)⟩
    rcases hkeeps.floor with heq | hgreatest
    · exact heq ▸ hinv.floor
    · exact hgreatest.1.imp_right (hinv.seen _)

/-- What ties the floor to the ids handed out. -/
structure IDInv (s : BatchRun L T) : Prop where
  /-- Ids are UUIDv7s. -/
  version : VersionInv s.writer
  /-- The ids handed out increase. -/
  increasing : s.issued.Pairwise (· < ·)
  /-- None is past the floor. -/
  issued_le : ∀ id ∈ s.issued, id ≤ s.writer.logBatchFloor
  /-- Each has the version and the variant. -/
  issued_version7 : ∀ id ∈ s.issued, isVersion7 id
  /-- The floor is an id handed out, or none was. -/
  floor_issued : s.writer.logBatchFloor = UUID.Nil ∨ s.writer.logBatchFloor ∈ s.issued
  /-- What a restart can see was handed out. -/
  seen_issued : ∀ id ∈ s.writer.seenIDs, id ∈ s.issued
  /-- Of the ids handed out, a restart can see the greatest. -/
  issued_le_seen : ∀ id ∈ s.issued, ∃ seen ∈ s.writer.seenIDs, id ≤ seen

/-- A new store hands out nothing and sees nothing. -/
theorem IDInv.init : IDInv (BatchRun.init : BatchRun L T) where
  version := VersionInv.new
  increasing := List.Pairwise.nil
  issued_le := by simp [BatchRun.init]
  issued_version7 := by simp [BatchRun.init]
  floor_issued := Or.inl rfl
  seen_issued := by
    simp [BatchRun.init, PebbleWriter.seenIDs, PebbleWriter.new, PebbleWriter.idsOf,
      PebbleWriter.cursorsOf]
  issued_le_seen := by simp [BatchRun.init]

/-- Handing out an id past the floor keeps the invariant. -/
private theorem IDInv.issue {s t : BatchRun L T} {random : UUID} {receivedAt : ℤ} (hinv : IDInv s)
    (hissues : Issues s t random receivedAt)
    (hroom : hasRoom s.writer.logBatchFloor random receivedAt) (hversion : VersionInv t.writer) :
    IDInv t := by
  obtain ⟨hlt, hversion7, _⟩ := drawBatchID_spec _ random receivedAt hinv.version.floor hroom
  rw [← hissues.floor] at hlt hversion7
  have hle : ∀ id ∈ t.issued, id ≤ t.writer.logBatchFloor := by
    intro id hid
    rcases List.mem_append.mp (hissues.issued ▸ hid) with hid | hid
    · exact ((hinv.issued_le id hid).trans_lt hlt).le
    · exact (List.mem_singleton.mp hid).le
  refine ⟨hversion, ?_, hle, ?_, Or.inr ?_, ?_, fun id hid => ⟨_, hissues.floor_seen, hle id hid⟩⟩
  · rw [hissues.issued]
    refine List.pairwise_append.mpr ⟨hinv.increasing, List.pairwise_singleton _ _, ?_⟩
    intro a ha b hb
    obtain rfl := List.mem_singleton.mp hb
    exact (hinv.issued_le a ha).trans_lt hlt
  · intro id hid
    rcases List.mem_append.mp (hissues.issued ▸ hid) with hid | hid
    · exact hinv.issued_version7 id hid
    · exact (List.mem_singleton.mp hid) ▸ hversion7
  · rw [hissues.issued]
    simp
  · intro id hid
    rw [hissues.issued]
    rcases hissues.seen id hid with rfl | hid
    · simp
    · exact List.mem_append_left _ (hinv.seen_issued id hid)

/-- Keeping what a restart can see keeps the invariant. -/
private theorem IDInv.keep {s t : BatchRun L T} (hinv : IDInv s) (hkeeps : Keeps s t)
    (hversion : VersionInv t.writer) : IDInv t := by
  refine ⟨hversion, ?_, ?_, ?_, ?_, ?_, ?_⟩
  · rw [hkeeps.issued]
    exact hinv.increasing
  · intro id hid
    rw [hkeeps.issued] at hid
    rcases hkeeps.floor with heq | hgreatest
    · exact heq ▸ hinv.issued_le id hid
    · obtain ⟨seen, hseen, hle⟩ := hinv.issued_le_seen id hid
      exact hle.trans (hgreatest.2 (Set.mem_insert_of_mem _ hseen))
  · rw [hkeeps.issued]
    exact hinv.issued_version7
  · rw [hkeeps.issued]
    rcases hkeeps.floor with heq | hgreatest
    · exact heq ▸ hinv.floor_issued
    · exact hgreatest.1.imp_right (hinv.seen_issued _)
  · intro id hid
    rw [hkeeps.issued]
    exact hinv.seen_issued id (hkeeps.seen id hid)
  · intro id hid
    rw [hkeeps.issued] at hid
    obtain ⟨seen, hseen, hle⟩ := hinv.issued_le_seen id hid
    obtain ⟨later, hlater, hle'⟩ := hkeeps.covers seen hseen
      (Nil_lt_of_version seen (hinv.version.seen seen hseen).1)
    exact ⟨later, hlater, hle.trans hle'⟩

/-- Every action with room keeps the invariant. -/
theorem IDInv.step {s t : BatchRun L T} {a : BatchAction L T} (hinv : IDInv s)
    (hroom : s.writesHaveRoom a) (hstep : s.step a = some t) : IDInv t := by
  have hversion := hinv.version.step hstep
  rcases step_cases hstep with ⟨random, receivedAt, hissues, hhasRoom⟩ | hkeeps
  · exact hinv.issue hissues (hhasRoom hroom) hversion
  · exact hinv.keep hkeeps hversion

/-- The invariant holds in every state reached by writes that have room. -/
theorem IDInv.of_reaches {s : BatchRun L T}
    (hrun : Reaches BatchRun.step writesHaveRoom BatchRun.init s) : IDInv s :=
  hrun.invariant IDInv.init fun _ _ _ hinv hroom hstep => hinv.step hroom hstep

/-- A write received at `receivedAt` is accepted and hands out `id`, under which its batch is
stored. -/
inductive HandsOut (s : BatchRun L T) (receivedAt : ℤ) (random : UUID) : UUID → Prop
  | log (project : ProjectID) (logs : List L) (w : PebbleWriter L T) :
    s.writer.writeLogBatch project logs receivedAt random = .ok w →
      HandsOut s receivedAt random w.logBatchFloor
  | transaction (project : ProjectID) (transactions : List T) (w : PebbleWriter L T) :
    s.writer.writeTransactionBatch project transactions receivedAt random = .ok w →
      HandsOut s receivedAt random w.logBatchFloor

/-- An id handed out comes after every id handed out before and after every cursor, is a UUIDv7,
and has the millisecond of its time or of the floor. -/
def IsNextID (s : BatchRun L T) (receivedAt : ℤ) (id : UUID) : Prop :=
  (∀ earlier ∈ s.issued, earlier < id) ∧
    (∀ project, s.writer.logProcessingCursor project < id ∧
      s.writer.spanProcessingCursor project < id) ∧
    isVersion7 id ∧
    (id.milliseconds = uint64 receivedAt % 2 ^ 48 ∨
      id.milliseconds = s.writer.logBatchFloor.milliseconds)

/-- The id handed out is the one drawn over the floor. -/
theorem HandsOut.eq_drawBatchID {s : BatchRun L T} {receivedAt : ℤ} {random id : UUID}
    (hout : HandsOut s receivedAt random id) :
    id = PebbleWriter.drawBatchID s.writer.logBatchFloor random receivedAt := by
  cases hout with
  | log project logs w hw =>
    rw [PebbleWriter.writeLogBatch] at hw
    split at hw
    · simp at hw
    · obtain rfl := Except.ok.inj hw
      rfl
  | transaction project transactions w hw =>
    rw [PebbleWriter.writeTransactionBatch] at hw
    split at hw
    · simp at hw
    · obtain rfl := Except.ok.inj hw
      rfl

/-- No cursor is past the floor. -/
theorem IDInv.cursor_le_floor {s : BatchRun L T} (hinv : IDInv s) (project : ProjectID) :
    s.writer.logProcessingCursor project ≤ s.writer.logBatchFloor ∧
      s.writer.spanProcessingCursor project ≤ s.writer.logBatchFloor := by
  have hle : ∀ cursors : Store ProjectID UUID,
      (∀ id ∈ PebbleWriter.cursorsOf cursors, id ∈ s.writer.seenIDs) →
      (cursors.get? project).getD UUID.Nil ≤ s.writer.logBatchFloor := by
    intro cursors hcursors
    cases hget : cursors.get? project with
    | none => exact s.writer.logBatchFloor.Nil_le
    | some cursor =>
      exact hinv.issued_le _ (hinv.seen_issued _
        (hcursors cursor ⟨_, (Store.get?_eq_some_iff _ _ _).mp hget, rfl⟩))
  exact ⟨hle _ fun id hid => Or.inl (Or.inr hid), hle _ fun id hid => Or.inr hid⟩

/-- In every state that writes with room reach, the ids handed out so far increase and are
UUIDv7s, and the next write hands out a next id exactly when it has room too. The id after the
floor comes after the floor exactly when the floor is not at its limit. -/
theorem batchIDs_increase (s : BatchRun L T)
    (hrun : Reaches BatchRun.step writesHaveRoom BatchRun.init s) :
    s.issued.Pairwise (· < ·) ∧ (∀ id ∈ s.issued, isVersion7 id) ∧
      (∀ receivedAt random id, HandsOut s receivedAt random id →
        (IsNextID s receivedAt id ↔ hasRoom s.writer.logBatchFloor random receivedAt)) ∧
      (s.writer.logBatchFloor < nextLogBatchID s.writer.logBatchFloor ↔
        s.writer.logBatchFloor.atLimit = false) := by
  have hinv := IDInv.of_reaches hrun
  refine ⟨hinv.increasing, hinv.issued_version7, fun receivedAt random id hout => ?_, ?_⟩
  · rw [hout.eq_drawBatchID]
    constructor
    · rintro ⟨hnext, -⟩
      -- without room the id wraps to below the floor, which was handed out before
      by_contra hroom
      obtain ⟨hle, hlimit⟩ := not_or.mp hroom
      have hfloor : s.writer.logBatchFloor ∈ s.issued := by
        refine hinv.floor_issued.resolve_left fun hnil => ?_
        rw [hnil] at hlimit
        exact hlimit rfl
      have hlt := hnext _ hfloor
      rw [PebbleWriter.drawBatchID, if_pos (not_lt.mp hle)] at hlt
      exact hlimit ((lt_nextLogBatchID_iff _ (hinv.issued_version7 _ hfloor).2).mp hlt)
    · intro hroom
      obtain ⟨hlt, hversion, hms⟩ :=
        drawBatchID_spec _ random receivedAt hinv.version.floor hroom
      refine ⟨fun earlier hearlier => (hinv.issued_le earlier hearlier).trans_lt hlt,
        fun project => ?_, hversion, hms⟩
      obtain ⟨hlog, hspan⟩ := hinv.cursor_le_floor project
      exact ⟨hlog.trans_lt hlt, hspan.trans_lt hlt⟩
  · rcases hinv.version.floor with hnil | hversion
    · rw [hnil]
      decide
    · exact lt_nextLogBatchID_iff _ hversion.2

instance (s : BatchRun L T) (a : BatchAction L T) : Decidable (s.writesHaveRoom a) :=
  match a with
  | .writeLogBatch _ _ receivedAt random =>
    inferInstanceAs (Decidable (hasRoom s.writer.logBatchFloor random receivedAt))
  | .writeTransactionBatch _ _ receivedAt random =>
    inferInstanceAs (Decidable (hasRoom s.writer.logBatchFloor random receivedAt))
  | .recordLogInsert .. | .setLogProcessingCursor .. | .deleteLogBatchesUpTo ..
  | .recordSpanInsert .. | .setSpanProcessingCursor .. | .deleteTransactionBatchesUpTo ..
  | .stopWrites | .restart => isTrue trivial

/-- A run that stores two batches, deletes the processed one, and restarts. -/
def deleteAndRestart : List (BatchAction ℕ ℕ) :=
  [.writeLogBatch 7 [1, 2] 1000 UUID.Nil, .writeTransactionBatch 9 [3] 1000 UUID.Nil,
    .setLogProcessingCursor 7 (newLogBatchID UUID.Nil 1000),
    .deleteLogBatchesUpTo 7 (newLogBatchID UUID.Nil 1000), .restart]

/-- The run that deletes and restarts is one. -/
private theorem deleteAndRestart_runs : (Transition.run BatchRun.step writesHaveRoom
    BatchRun.init deleteAndRestart).isSome = true := by decide

/-- After it, a write with the clock stepped back hands out a next id. -/
theorem batchIDs_increase_clockBack : ∃ s : BatchRun ℕ ℕ,
    Transition.run BatchRun.step writesHaveRoom BatchRun.init deleteAndRestart = some s ∧
      s.issued.length = 2 ∧ ∃ id, HandsOut s 400 UUID.Nil id ∧ IsNextID s 400 id := by
  have hrun := (Option.some_get deleteAndRestart_runs).symm
  refine ⟨_, hrun, by decide, _, HandsOut.log 7 [5] _ rfl, ?_⟩
  exact ((batchIDs_increase _ (reaches_of_run hrun)).2.2.1 400 UUID.Nil _
    (HandsOut.log 7 [5] _ rfl)).mpr (by decide)

/-- A write whose random bits are all set takes the floor to its limit, and the next write of the
same millisecond is handed an id below the floor: ids do not increase over every run. -/
theorem not_forall_isNextID : ¬ ∀ s : BatchRun ℕ ℕ,
    Reaches BatchRun.step (fun _ _ => True) BatchRun.init s →
      ∀ receivedAt random id, HandsOut s receivedAt random id → IsNextID s receivedAt id := by
  intro h
  let full : UUID := ⟨List.replicate 16 0xff, rfl⟩
  have hrun : Transition.run BatchRun.step (fun _ _ => True) BatchRun.init
      [(.writeLogBatch 7 [1] 1000 full : BatchAction ℕ ℕ)] = some _ := rfl
  have hnext := h _ (reaches_of_run hrun) 1000 UUID.Nil _ (HandsOut.log 7 [2] _ rfl)
  exact absurd (hnext.1 (newLogBatchID full 1000) (by decide)) (by decide)

end BatchRun

end SolidTrace.Storage
