import SolidTrace.Lib.SortedHistory
import SolidTrace.Storage.BatchIDOrder

/-!
# A Project's batches past a cursor

What a write, a cursor move and a delete do to the batches of one Project past its cursor, for
either keyspace of batches.
-/

namespace SolidTrace.Storage

open SortedStore SortedHistory

variable {α : Type*}

/-- A Project's batches past a cursor in a keyspace. -/
def pendingBatches (batches : Store BatchKey (List α)) (project : ProjectID) (cursor : UUID) :
    List (Batch α) :=
  toBatches (batches.range (keysAfter project cursor))

/-- A pending batch is in Pebble. -/
theorem holds_of_mem_pendingBatches (batches : Store BatchKey (List α)) (project : ProjectID)
    (cursor : UUID) (batch : Batch α) (hbatch : batch ∈ pendingBatches batches project cursor) :
    BatchRun.holds batches project batch.id = true := by
  obtain ⟨e, he, rfl⟩ := List.mem_map.mp hbatch
  obtain ⟨hmem, hafter⟩ := (Store.mem_range _ _ _).mp he
  simp only [keysAfter, Bool.and_eq_true, decide_eq_true_eq] at hafter
  exact List.any_eq_true.mpr ⟨e, hmem, by simp [hafter.1]⟩

/-- A batch written past the Project's pending batches comes behind them. -/
theorem pendingBatches_set_self (batches : Store BatchKey (List α)) (project : ProjectID)
    (cursor id : UUID) (items : List α) (hcursor : cursor < id)
    (hids : ∀ batch ∈ pendingBatches batches project cursor, batch.id < id) :
    pendingBatches (batches.set ⟨project, id⟩ items) project cursor =
      pendingBatches batches project cursor ++ [⟨id, items⟩] := by
  have hlt : ∀ e ∈ batches.entries, keysAfter project cursor e.1 = true →
      e.1 < (⟨project, id⟩ : BatchKey) := by
    intro e he hafter
    have hid := hids ⟨e.1.id, e.2⟩ (List.mem_map_of_mem ((Store.mem_range _ _ _).mpr ⟨he, hafter⟩))
    simp only [keysAfter, Bool.and_eq_true, decide_eq_true_eq] at hafter
    exact (BatchKey.lt_iff_id_lt _ _ hafter.1).mpr hid
  rw [pendingBatches, Store.range_set_of_lt batches (keysAfter project cursor) _ items hlt
    (by simp [keysAfter, hcursor])]
  exact List.map_append

/-- A batch of another Project is not pending. -/
theorem pendingBatches_set_of_ne (batches : Store BatchKey (List α)) {project other : ProjectID}
    (cursor id : UUID) (items : List α) (hne : project ≠ other) :
    pendingBatches (batches.set ⟨project, id⟩ items) other cursor =
      pendingBatches batches other cursor := by
  rw [pendingBatches, Store.range_set_of_not batches _ _ items (by simp [keysAfter, hne])]
  rfl

/-- Moving the cursor forward leaves the batches past it pending. -/
theorem pendingBatches_move (batches : Store BatchKey (List α)) (project : ProjectID)
    {cursor upTo : UUID} (hforward : cursor < upTo) :
    pendingBatches batches project upTo =
      past Batch.id (pendingBatches batches project cursor) upTo := by
  have hnil : upTo ≠ UUID.Nil := by
    intro hnil
    exact absurd (hnil ▸ hforward) (UUID.Nil_le _).not_gt
  rw [past, pendingBatches, pendingBatches, toBatches, toBatches, List.filter_map, Store.range,
    Store.range, List.filter_filter]
  congr 1
  refine List.filter_congr fun e _ => ?_
  by_cases hlt : upTo < e.1.id
  · simp [keysAfter, hlt, hforward.trans hlt]
  · simp [keysAfter, hlt, hnil]

/-- Deleting batches at or below the cursor leaves what is pending. -/
theorem pendingBatches_deleteRange (batches : Store BatchKey (List α)) (project : ProjectID)
    (cursor : UUID) (deleted : BatchKey → Bool)
    (hdeleted : ∀ key, deleted key = true → key.project = project →
      cursor ≠ UUID.Nil ∧ key.id ≤ cursor) :
    pendingBatches (batches.deleteRange deleted) project cursor =
      pendingBatches batches project cursor := by
  rw [pendingBatches, Store.range_deleteRange_of_disjoint]
  · rfl
  · intro key hafter
    by_contra hkey
    simp only [keysAfter, Bool.and_eq_true, decide_eq_true_eq, Bool.or_eq_true] at hafter
    obtain ⟨hnil, hle⟩ := hdeleted key (by simpa using hkey) hafter.1
    exact absurd (hafter.2.resolve_left hnil) hle.not_gt

end SolidTrace.Storage
