import Mathlib.Order.Fin.Basic
import Mathlib.Order.Bounds.Basic
import Mathlib.Data.List.Dedup
import SolidTrace.Lib.SortedStore
import SolidTrace.Lib.WeightedPrefix
import SolidTrace.Storage.BatchIDs

/-!
# Log and Transaction batches in Pebble

The batch keyspaces of `PebbleWriter`, the processing cursors and recorded ranges beside them,
and the id floor that both kinds of batch draw from. Keys compare bytewise: the Project id, then
the batch id. A restart opens Pebble anew, which seeds the floor from the newest stored batches,
and then prepares Log and Span processing, before ingest writes.
-/

namespace SolidTrace.Storage

open SortedStore WeightedPrefix

/-- A Project's id, a `uint32`. -/
abbrev ProjectID := Fin 4294967296

instance ProjectID.neZero : NeZero 4294967296 := ⟨by decide⟩

/-- A batch's key within its keyspace. -/
@[ext] structure BatchKey where
  project : ProjectID
  id : UUID
deriving Repr

namespace BatchKey

/-- The Project id, big-endian, then the batch id. -/
def bytes (key : BatchKey) : List UInt8 :=
  ByteOrder.bigEndian 4 key.project.val ++ key.id.bytes

/-- The number a key's bytes write. -/
def value (key : BatchKey) : ℕ := ByteOrder.value key.bytes

/-- A key's value is its Project's and then its id's. -/
theorem value_eq (key : BatchKey) : key.value = key.project.val * 256 ^ 16 + key.id.value := by
  rw [value, bytes, ByteOrder.value_append, ByteOrder.value_bigEndian, key.id.length_bytes,
    Nat.mod_eq_of_lt (by exact key.project.isLt), UUID.value]

/-- An id's value takes sixteen bytes. -/
theorem id_value_lt (id : UUID) : id.value < 256 ^ 16 := by
  simpa only [UUID.value, id.length_bytes] using ByteOrder.value_lt id.bytes

/-- Keys with the same value are one. -/
theorem value_injective : Function.Injective value := by
  intro a b hvalue
  have ha := id_value_lt a.id
  have hb := id_value_lt b.id
  rw [value_eq, value_eq] at hvalue
  exact BatchKey.ext (Fin.ext (by omega)) (UUID.value_injective (by omega))

/-- Keys are ordered bytewise. -/
instance : LinearOrder BatchKey := LinearOrder.lift' value value_injective

/-- Within a Project, keys are ordered as their batch ids. -/
theorem lt_iff_id_lt (a b : BatchKey) (hproject : a.project = b.project) :
    a < b ↔ a.id < b.id := by
  change a.value < b.value ↔ a.id.value < b.id.value
  rw [value_eq, value_eq, hproject]
  omega

end BatchKey

/-- The normalised Logs, or the Transactions, of one request, under the batch's id. -/
structure Batch (α : Type*) where
  id : UUID
  items : List α
deriving DecidableEq, Repr

/-- The part of `PebbleWriter` that holds batches, over the types of Logs and Transactions. -/
structure PebbleWriter (L T : Type*) where
  logBatches : Store BatchKey (List L)
  transactionBatches : Store BatchKey (List T)
  logCursors : Store ProjectID UUID
  logInserts : Store ProjectID UUID
  spanCursors : Store ProjectID UUID
  spanInserts : Store ProjectID UUID
  logBatchFloor : UUID
  stopped : Bool

/-- Why a write is refused. -/
inductive WriteError where
  | shuttingDown
deriving DecidableEq, Repr

/-- The keys of a Project's batches after the batch `after`. `uuid.Nil` starts at the first. -/
def keysAfter (project : ProjectID) (after : UUID) (key : BatchKey) : Bool :=
  key.project = project && (after = UUID.Nil || after < key.id)

/-- The keys of a Project's batches up to and including the batch `upTo`. -/
def keysUpTo (project : ProjectID) (upTo : UUID) (key : BatchKey) : Bool :=
  key.project = project && key.id ≤ upTo

/-- A keyspace's entries as batches. -/
def toBatches {α : Type*} (entries : List (BatchKey × List α)) : List (Batch α) :=
  entries.map fun e => ⟨e.1.id, e.2⟩

namespace PebbleWriter

variable {L T : Type*}

/-- A new Pebble. -/
def new : PebbleWriter L T where
  logBatches := Store.empty
  transactionBatches := Store.empty
  logCursors := Store.empty
  logInserts := Store.empty
  spanCursors := Store.empty
  spanInserts := Store.empty
  logBatchFloor := UUID.Nil
  stopped := false

/-- The id of the next batch: one drawn from its time, or, where that does not come after the
floor, the next after the floor. -/
def drawBatchID (floor random : UUID) (receivedAt : ℤ) : UUID :=
  if newLogBatchID random receivedAt ≤ floor then nextLogBatchID floor
  else newLogBatchID random receivedAt

/-- Store a request's Logs as one Log batch. -/
def writeLogBatch (w : PebbleWriter L T) (project : ProjectID) (logs : List L) (receivedAt : ℤ)
    (random : UUID) : Except WriteError (PebbleWriter L T) :=
  if w.stopped then .error .shuttingDown
  else
    let batchID := drawBatchID w.logBatchFloor random receivedAt
    .ok { w with
      logBatchFloor := batchID
      logBatches := w.logBatches.set ⟨project, batchID⟩ logs }

/-- Store an envelope's Transactions as one Transaction batch. -/
def writeTransactionBatch (w : PebbleWriter L T) (project : ProjectID) (transactions : List T)
    (receivedAt : ℤ) (random : UUID) : Except WriteError (PebbleWriter L T) :=
  if w.stopped then .error .shuttingDown
  else
    let batchID := drawBatchID w.logBatchFloor random receivedAt
    .ok { w with
      logBatchFloor := batchID
      transactionBatches := w.transactionBatches.set ⟨project, batchID⟩ transactions }

/-- Refuse every later write. -/
def stopWrites (w : PebbleWriter L T) : PebbleWriter L T := { w with stopped := true }

/-- Make every id drawn from now on come after `id`. -/
def keepLogBatchIDsAbove (w : PebbleWriter L T) (id : UUID) : PebbleWriter L T :=
  if w.logBatchFloor < id then { w with logBatchFloor := id } else w

/-- Raise a floor to the newest batch of every Project of a keyspace, read from its last entry
down. `passed` is the Project whose newest batch was just read: the iterator seeks past its
other batches. -/
def seedBatchFloor {α : Type*} : UUID → Option ProjectID → List (BatchKey × List α) → UUID
  | floor, _, [] => floor
  | floor, passed, e :: rest =>
    if passed = some e.1.project then seedBatchFloor floor passed rest
    else seedBatchFloor (if floor < e.1.id then e.1.id else floor) (some e.1.project) rest

/-- Keep new ids above the newest stored Log and Transaction batch of every Project. -/
def seedLogBatchFloor (w : PebbleWriter L T) : PebbleWriter L T :=
  let floor := seedBatchFloor w.logBatchFloor none w.logBatches.entries.reverse
  { w with logBatchFloor := seedBatchFloor floor none w.transactionBatches.entries.reverse }

/-- Open Pebble in a new process: the floor is not stored. -/
def reopen (w : PebbleWriter L T) : PebbleWriter L T :=
  seedLogBatchFloor { w with logBatchFloor := UUID.Nil, stopped := false }

/-- A Project's Log batches after the batch `after`, until they hold `maxLogs` Logs or more. -/
def logBatchesAfter (w : PebbleWriter L T) (project : ProjectID) (after : UUID) (maxLogs : ℕ) :
    List (Batch L) :=
  takeWeight (fun batch => batch.items.length) maxLogs 0
    (toBatches (w.logBatches.range (keysAfter project after)))

/-- A Project's Transaction batches after the batch `after`, until their payloads, of which `size`
is the length, hold `maxBytes` or more. -/
def transactionBatchesAfter (w : PebbleWriter L T) (size : List T → ℕ) (project : ProjectID)
    (after : UUID) (maxBytes : ℕ) : List (Batch T) :=
  takeWeight (fun batch => size batch.items) maxBytes 0
    (toBatches (w.transactionBatches.range (keysAfter project after)))

/-- Delete a Project's Log batches up to and including the batch `upTo`. -/
def deleteLogBatchesUpTo (w : PebbleWriter L T) (project : ProjectID) (upTo : UUID) :
    PebbleWriter L T :=
  { w with logBatches := w.logBatches.deleteRange (keysUpTo project upTo) }

/-- Delete a Project's Transaction batches up to and including the batch `upTo`. -/
def deleteTransactionBatchesUpTo (w : PebbleWriter L T) (project : ProjectID) (upTo : UUID) :
    PebbleWriter L T :=
  { w with transactionBatches := w.transactionBatches.deleteRange (keysUpTo project upTo) }

/-- A Project's Log processing cursor, `uuid.Nil` if it has none. -/
def logProcessingCursor (w : PebbleWriter L T) (project : ProjectID) : UUID :=
  (w.logCursors.get? project).getD UUID.Nil

/-- Move a Project's Log processing cursor. -/
def setLogProcessingCursor (w : PebbleWriter L T) (project : ProjectID) (cursor : UUID) :
    PebbleWriter L T :=
  { w with logCursors := w.logCursors.set project cursor }

/-- The last batch of the range Log processing last recorded, `uuid.Nil` if it has none. -/
def recordedLogInsert (w : PebbleWriter L T) (project : ProjectID) : UUID :=
  (w.logInserts.get? project).getD UUID.Nil

/-- Record the last batch of the range Log processing is about to insert. -/
def recordLogInsert (w : PebbleWriter L T) (project : ProjectID) (upTo : UUID) :
    PebbleWriter L T :=
  { w with logInserts := w.logInserts.set project upTo }

/-- A Project's Span processing cursor, `uuid.Nil` if it has none. -/
def spanProcessingCursor (w : PebbleWriter L T) (project : ProjectID) : UUID :=
  (w.spanCursors.get? project).getD UUID.Nil

/-- Move a Project's Span processing cursor. -/
def setSpanProcessingCursor (w : PebbleWriter L T) (project : ProjectID) (cursor : UUID) :
    PebbleWriter L T :=
  { w with spanCursors := w.spanCursors.set project cursor }

/-- The last batch of the range Span processing last recorded, `uuid.Nil` if it has none. -/
def recordedSpanInsert (w : PebbleWriter L T) (project : ProjectID) : UUID :=
  (w.spanInserts.get? project).getD UUID.Nil

/-- Record the last batch of the range Span processing is about to insert. -/
def recordSpanInsert (w : PebbleWriter L T) (project : ProjectID) (upTo : UUID) :
    PebbleWriter L T :=
  { w with spanInserts := w.spanInserts.set project upTo }

/-- The Projects that have a batch in a keyspace, in order. -/
def projectsWithBatches {α : Type*} (entries : List (BatchKey × List α)) : List ProjectID :=
  (entries.map fun e => e.1.project).dedup

/-- Prepare Log processing: keep new ids above every cursor, and delete the batches a crash left
after they were stored. -/
def prepareLogProcessing (w : PebbleWriter L T) : PebbleWriter L T :=
  let kept := (w.logCursors.entries.map Prod.snd).foldl keepLogBatchIDsAbove w
  (projectsWithBatches kept.logBatches.entries).foldl (fun w project =>
    if w.logProcessingCursor project ≠ UUID.Nil then
      w.deleteLogBatchesUpTo project (w.logProcessingCursor project)
    else w) kept

/-- Make every id drawn from now on come after every Project's Span processing cursor. -/
def keepBatchIDsAboveSpanCursors (w : PebbleWriter L T) : PebbleWriter L T :=
  (w.spanCursors.entries.map Prod.snd).foldl keepLogBatchIDsAbove w

/-- Prepare Span processing, as Log processing. -/
def prepareSpanProcessing (w : PebbleWriter L T) : PebbleWriter L T :=
  let kept := w.keepBatchIDsAboveSpanCursors
  (projectsWithBatches kept.transactionBatches.entries).foldl (fun w project =>
    if w.spanProcessingCursor project ≠ UUID.Nil then
      w.deleteTransactionBatchesUpTo project (w.spanProcessingCursor project)
    else w) kept

/-- A restart, up to where ingest writes again. -/
def restart (w : PebbleWriter L T) : PebbleWriter L T :=
  w.reopen.prepareLogProcessing.prepareSpanProcessing

/-- The batch ids a keyspace stores. -/
def idsOf {α : Type*} (entries : List (BatchKey × List α)) : Set UUID :=
  {id | ∃ e ∈ entries, e.1.id = id}

/-- The order of entries does not matter to the ids among them. -/
@[simp] theorem idsOf_reverse {α : Type*} (entries : List (BatchKey × List α)) :
    idsOf entries.reverse = idsOf entries := by
  ext id
  simp [idsOf]

/-- The ids a store of cursors holds. -/
def cursorsOf (cursors : Store ProjectID UUID) : Set UUID :=
  {id | ∃ e ∈ cursors.entries, e.2 = id}

/-- Raising a maximum first over one set of ids and then over another raises it over both. -/
private theorem isGreatest_insert_trans {a b c : UUID} {s t : Set UUID}
    (hb : IsGreatest (insert a s) b) (hc : IsGreatest (insert b t) c) :
    IsGreatest (insert a (s ∪ t)) c := by
  have hbc : b ≤ c := hc.2 (Set.mem_insert b t)
  refine ⟨?_, ?_⟩
  · rcases hc.1 with rfl | hct
    · exact Set.insert_subset_insert Set.subset_union_left hb.1
    · exact Set.mem_insert_of_mem a (Or.inr hct)
  · rintro id (rfl | his | hit)
    · exact (hb.2 (Set.mem_insert _ s)).trans hbc
    · exact (hb.2 (Set.mem_insert_of_mem a his)).trans hbc
    · exact hc.2 (Set.mem_insert_of_mem b hit)

/-- Keeping ids above a list of ids changes the floor alone, to the greatest of them. -/
theorem foldl_keepLogBatchIDsAbove (ids : List UUID) (w : PebbleWriter L T) :
    ∃ floor, IsGreatest (insert w.logBatchFloor {id | id ∈ ids}) floor ∧
      ids.foldl keepLogBatchIDsAbove w = { w with logBatchFloor := floor } := by
  induction ids generalizing w with
  | nil => exact ⟨w.logBatchFloor, by simp, rfl⟩
  | cons id rest ih =>
    have hkeep : keepLogBatchIDsAbove w id = { w with logBatchFloor := max w.logBatchFloor id } := by
      rw [keepLogBatchIDsAbove]
      split
      · rename_i hlt
        rw [max_eq_right hlt.le]
      · rename_i hle
        rw [max_eq_left (not_lt.mp hle)]
    obtain ⟨floor, hfloor, hfold⟩ := ih (keepLogBatchIDsAbove w id)
    rw [hkeep] at hfloor
    refine ⟨floor, ?_, by rw [List.foldl_cons, hfold, hkeep]⟩
    have hids : {x | x ∈ id :: rest} = {id} ∪ {x | x ∈ rest} := by
      ext x
      simp
    rw [hids]
    exact isGreatest_insert_trans isGreatest_pair hfloor

/-- Seeding a floor from a keyspace read from its end raises it to the greatest stored id,
although it reads one key per Project. -/
theorem seedBatchFloor_isGreatest {α : Type*} (floor : UUID) (passed : Option ProjectID)
    (entries : List (BatchKey × List α)) (hsorted : entries.Pairwise fun a b => b.1 < a.1)
    (hpassed : ∀ e ∈ entries, passed = some e.1.project → e.1.id ≤ floor) :
    IsGreatest (insert floor (idsOf entries)) (seedBatchFloor floor passed entries) := by
  induction entries generalizing floor passed with
  | nil => simp [seedBatchFloor, idsOf]
  | cons e rest ih =>
    obtain ⟨hfirst, hrest⟩ := List.pairwise_cons.mp hsorted
    have hids : idsOf (e :: rest) = {e.1.id} ∪ idsOf rest := by
      ext id
      simp [idsOf, eq_comm]
    rw [seedBatchFloor, hids]
    split
    · rename_i hskip
      have hle : e.1.id ≤ floor := hpassed e List.mem_cons_self hskip
      refine isGreatest_insert_trans (b := floor) ⟨Set.mem_insert _ _, ?_⟩
        (ih floor passed hrest fun x hx => hpassed x (List.mem_cons_of_mem e hx))
      rintro id (rfl | rfl)
      · exact le_rfl
      · exact hle
    · have hmax : (if floor < e.1.id then e.1.id else floor) = max floor e.1.id := by
        split
        · rename_i hlt
          exact (max_eq_right hlt.le).symm
        · rename_i hle
          exact (max_eq_left (not_lt.mp hle)).symm
      rw [hmax]
      refine isGreatest_insert_trans isGreatest_pair (ih _ _ hrest fun x hx hproject => ?_)
      have hsame : x.1.project = e.1.project := (Option.some.inj hproject).symm
      exact ((BatchKey.lt_iff_id_lt _ _ hsame).mp (hfirst x hx)).le.trans (le_max_right _ _)

/-- The keys of batches at or below their Project's cursor, where it has one. -/
def handled (cursor : ProjectID → UUID) (key : BatchKey) : Bool :=
  cursor key.project ≠ UUID.Nil && key.id ≤ cursor key.project

/-- A batch that is handled is at the cursor or before it. -/
theorem le_of_handled {cursor : ProjectID → UUID} {key : BatchKey}
    (h : handled cursor key = true) : key.id ≤ cursor key.project := by
  simp only [handled, Bool.and_eq_true, decide_eq_true_eq] at h
  exact h.2

/-- Deleting Project by Project what its cursor covers deletes the handled batches of the
Projects listed. -/
private theorem foldl_deleteUpTo {α : Type*} (cursor : ProjectID → UUID)
    (projects : List ProjectID) (batches : Store BatchKey (List α)) :
    projects.foldl (fun batches project => if cursor project ≠ UUID.Nil then
        batches.deleteRange (keysUpTo project (cursor project)) else batches) batches =
      batches.deleteRange fun key => decide (key.project ∈ projects) && handled cursor key := by
  induction projects generalizing batches with
  | nil => exact (Store.deleteRange_of_forall_not _ _ (by simp)).symm
  | cons project rest ih =>
    have hone : (if cursor project ≠ UUID.Nil then
        batches.deleteRange (keysUpTo project (cursor project)) else batches) =
        batches.deleteRange fun key => decide (key.project = project) && handled cursor key := by
      split
      · rename_i hcursor
        refine Store.deleteRange_congr _ fun e _ => ?_
        by_cases he : e.1.project = project <;> simp [keysUpTo, handled, he, hcursor]
      · rename_i hcursor
        refine (Store.deleteRange_of_forall_not _ _ fun e _ => ?_).symm
        by_cases he : e.1.project = project <;> simp_all [handled]
    rw [List.foldl_cons, hone, ih, Store.deleteRange_deleteRange]
    refine Store.deleteRange_congr _ fun e _ => ?_
    by_cases he : e.1.project = project <;> simp [he]

/-- The Projects that have batches are all there is to delete from. -/
private theorem foldl_deleteUpTo_projectsWithBatches {α : Type*} (cursor : ProjectID → UUID)
    (batches : Store BatchKey (List α)) :
    (projectsWithBatches batches.entries).foldl (fun batches project =>
        if cursor project ≠ UUID.Nil then
          batches.deleteRange (keysUpTo project (cursor project)) else batches) batches =
      batches.deleteRange (handled cursor) := by
  rw [foldl_deleteUpTo]
  refine Store.deleteRange_congr _ fun e he => ?_
  have hmem : e.1.project ∈ projectsWithBatches batches.entries :=
    List.mem_dedup.mpr (List.mem_map_of_mem he)
  simp [hmem]

/-- The greatest of the ids a store of cursors holds. -/
private theorem foldl_keep_cursors (cursors : Store ProjectID UUID) (w : PebbleWriter L T) :
    ∃ floor, IsGreatest (insert w.logBatchFloor (cursorsOf cursors)) floor ∧
      (cursors.entries.map Prod.snd).foldl keepLogBatchIDsAbove w =
        { w with logBatchFloor := floor } := by
  have hcursors : {id | id ∈ cursors.entries.map Prod.snd} = cursorsOf cursors := by
    ext id
    simp [cursorsOf]
  exact hcursors ▸ foldl_keepLogBatchIDsAbove (cursors.entries.map Prod.snd) w

/-- Preparing Log processing raises the floor over the cursors and deletes what they cover. -/
theorem prepareLogProcessing_eq (w : PebbleWriter L T) :
    ∃ floor, IsGreatest (insert w.logBatchFloor (cursorsOf w.logCursors)) floor ∧
      w.prepareLogProcessing = { w with
        logBatchFloor := floor
        logBatches := w.logBatches.deleteRange (handled w.logProcessingCursor) } := by
  have hfold : ∀ (projects : List ProjectID) (w : PebbleWriter L T),
      projects.foldl (fun w project => if w.logProcessingCursor project ≠ UUID.Nil then
        w.deleteLogBatchesUpTo project (w.logProcessingCursor project) else w) w =
      { w with logBatches := projects.foldl (fun batches project =>
          if w.logProcessingCursor project ≠ UUID.Nil then
            batches.deleteRange (keysUpTo project (w.logProcessingCursor project))
          else batches) w.logBatches } := by
    intro projects
    induction projects with
    | nil => exact fun w => rfl
    | cons project rest ih =>
      intro w
      rw [List.foldl_cons, List.foldl_cons, ih]
      split <;> rfl
  obtain ⟨floor, hfloor, hkeep⟩ := foldl_keep_cursors w.logCursors w
  refine ⟨floor, hfloor, ?_⟩
  rw [prepareLogProcessing, hkeep, hfold]
  exact congrArg (fun batches => { w with logBatchFloor := floor, logBatches := batches })
    (foldl_deleteUpTo_projectsWithBatches w.logProcessingCursor w.logBatches)

/-- Preparing Span processing does the same for Transaction batches. -/
theorem prepareSpanProcessing_eq (w : PebbleWriter L T) :
    ∃ floor, IsGreatest (insert w.logBatchFloor (cursorsOf w.spanCursors)) floor ∧
      w.prepareSpanProcessing = { w with
        logBatchFloor := floor
        transactionBatches :=
          w.transactionBatches.deleteRange (handled w.spanProcessingCursor) } := by
  have hfold : ∀ (projects : List ProjectID) (w : PebbleWriter L T),
      projects.foldl (fun w project => if w.spanProcessingCursor project ≠ UUID.Nil then
        w.deleteTransactionBatchesUpTo project (w.spanProcessingCursor project) else w) w =
      { w with transactionBatches := projects.foldl (fun batches project =>
          if w.spanProcessingCursor project ≠ UUID.Nil then
            batches.deleteRange (keysUpTo project (w.spanProcessingCursor project))
          else batches) w.transactionBatches } := by
    intro projects
    induction projects with
    | nil => exact fun w => rfl
    | cons project rest ih =>
      intro w
      rw [List.foldl_cons, List.foldl_cons, ih]
      split <;> rfl
  obtain ⟨floor, hfloor, hkeep⟩ := foldl_keep_cursors w.spanCursors w
  refine ⟨floor, hfloor, ?_⟩
  rw [prepareSpanProcessing, keepBatchIDsAboveSpanCursors, hkeep, hfold]
  exact congrArg (fun batches => { w with logBatchFloor := floor, transactionBatches := batches })
    (foldl_deleteUpTo_projectsWithBatches w.spanProcessingCursor w.transactionBatches)

/-- The ids a restart can still see: of the stored batches, and the cursors. -/
def seenIDs (w : PebbleWriter L T) : Set UUID :=
  idsOf w.logBatches.entries ∪ idsOf w.transactionBatches.entries ∪ cursorsOf w.logCursors ∪
    cursorsOf w.spanCursors

/-- An id is seen when a batch or a cursor has it. -/
theorem mem_seenIDs (w : PebbleWriter L T) (id : UUID) :
    id ∈ w.seenIDs ↔ id ∈ idsOf w.logBatches.entries ∨ id ∈ idsOf w.transactionBatches.entries ∨
      id ∈ cursorsOf w.logCursors ∨ id ∈ cursorsOf w.spanCursors := by
  simp only [seenIDs, Set.mem_union, or_assoc]

/-- A restart sets the floor to the greatest id it can see, and deletes the handled batches. -/
theorem restart_eq (w : PebbleWriter L T) :
    ∃ floor, IsGreatest (insert UUID.Nil w.seenIDs) floor ∧
      w.restart = { w with
        logBatchFloor := floor
        stopped := false
        logBatches := w.logBatches.deleteRange (handled w.logProcessingCursor)
        transactionBatches :=
          w.transactionBatches.deleteRange (handled w.spanProcessingCursor) } := by
  have hlog := seedBatchFloor_isGreatest UUID.Nil none w.logBatches.entries.reverse
    (List.pairwise_reverse.mpr w.logBatches.sorted) (by simp)
  have htxn := seedBatchFloor_isGreatest
    (seedBatchFloor UUID.Nil none w.logBatches.entries.reverse) none
    w.transactionBatches.entries.reverse
    (List.pairwise_reverse.mpr w.transactionBatches.sorted) (by simp)
  rw [idsOf_reverse] at hlog htxn
  obtain ⟨logFloor, hlogFloor, hprepareLog⟩ := prepareLogProcessing_eq w.reopen
  obtain ⟨floor, hfloor, hprepareSpan⟩ := prepareSpanProcessing_eq w.reopen.prepareLogProcessing
  rw [hprepareLog] at hfloor hprepareSpan
  refine ⟨floor, ?_, ?_⟩
  · exact isGreatest_insert_trans (isGreatest_insert_trans (isGreatest_insert_trans hlog htxn)
      hlogFloor) hfloor
  · rw [restart, hprepareLog, hprepareSpan]
    rfl

end PebbleWriter

end SolidTrace.Storage
