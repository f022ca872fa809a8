import SolidTrace.KeyCounts.InsertKeyCounts
import SolidTrace.Lib.Transition

/-!
# The key counts are a sound top-K

The table's rows for a day sum to the counts of the stored ranges merged one after another, whatever
fails between. The counts in memory are those, or are behind by the range that goes again: ClickHouse took
it and did not answer, so what is worked out from them is dropped.
-/

namespace SolidTrace.KeyCounts

open Normalise SpaceSaving LogProcessing Storage Transition

variable {D : Type}

section Sums

/-- The sum over rows added is the sum of both sums. -/
theorem sumOf_append (rows rows' : List Row) (projectDay : ProjectDay) (key : TypedKey) :
    sumOf (rows ++ rows') projectDay key = sumOf rows projectDay key + sumOf rows' projectDay key := by
  rw [sumOf, List.filter_append, List.map_append, List.sum_append]
  rfl

/-- The sum with a row more. -/
theorem sumOf_cons (row : Row) (rows : List Row) (projectDay : ProjectDay) (key : TypedKey) :
    sumOf (row :: rows) projectDay key =
      (if row.projectDay = projectDay ∧ row.key = key then row.logs else 0) + sumOf rows projectDay key := by
  rw [sumOf, List.filter_cons]
  split
  next h => rw [if_pos (of_decide_eq_true h)]; rfl
  next h => rw [if_neg fun h' => h (decide_eq_true h'), zero_add]; rfl

/-- One row for each key. -/
theorem sumOf_map {keys : List TypedKey} (hnodup : keys.Nodup) (rowDay : ProjectDay) (logs : TypedKey → ℤ)
    (projectDay : ProjectDay) (key : TypedKey) :
    sumOf (keys.map fun key => ⟨rowDay, key, logs key⟩) projectDay key =
      if rowDay = projectDay ∧ key ∈ keys then logs key else 0 := by
  induction keys with
  | nil => simp [sumOf]
  | cons first rest ih =>
    obtain ⟨hfirst, hrest⟩ := List.nodup_cons.1 hnodup
    rw [List.map_cons, sumOf_cons, ih hrest]
    by_cases hday : rowDay = projectDay
    · by_cases hkey : first = key
      · subst hkey
        simp [hday, hfirst]
      · have hkey' : key ≠ first := Ne.symm hkey
        simp [hday, hkey, hkey']
    · simp [hday]

/-- The rows of one day for each of some days. -/
theorem sumOf_flatMap {days : List ℤ} (hnodup : days.Nodup) (project : ProjectID) (rows : ℤ → List Row)
    (key : TypedKey) (logs : ProjectDay → ℤ)
    (hrows : ∀ day projectDay, sumOf (rows day) projectDay key =
      if ⟨project, day⟩ = projectDay then logs projectDay else 0) (projectDay : ProjectDay) :
    sumOf (days.flatMap rows) projectDay key =
      if project = projectDay.project ∧ projectDay.day ∈ days then logs projectDay else 0 := by
  induction days with
  | nil => simp [sumOf]
  | cons first rest ih =>
    obtain ⟨hfirst, hrest⟩ := List.nodup_cons.1 hnodup
    rw [List.flatMap_cons, sumOf_append, hrows, ih hrest]
    obtain ⟨project', day⟩ := projectDay
    by_cases hproject : project = project'
    · by_cases hday : first = day
      · subst hday
        simp [hproject, hfirst]
      · have hday' : day ≠ first := Ne.symm hday
        simp [hproject, hday, hday']
    · simp [hproject]

/-- A day's rows are what merging a batch changes. -/
theorem sumOf_dayRows (rowDay : ProjectDay) (before batch : Counts TypedKey) (keep : ℕ) (projectDay : ProjectDay)
    (key : TypedKey) :
    sumOf (Store.dayRows rowDay before (mergeKeyCounts before batch keep)) projectDay key =
      if rowDay = projectDay then (mergeKeyCounts before batch keep).counts.count key - before.count key else 0 := by
  set merged := mergeKeyCounts before batch keep with hmerged
  rw [Store.dayRows, sumOf_append, sumOf_map (Finset.sort_nodup _ _),
    sumOf_map ((Finset.sort_nodup _ _).filter _)]
  by_cases hday : rowDay = projectDay
  swap
  · simp [hday]
  simp only [hday, true_and, Finset.mem_sort, List.mem_filter, decide_eq_true_eq, if_true]
  have hcount := count_mergeKeyCounts before batch keep key
  rw [← hmerged] at hcount
  have hchanged : key ∈ merged.changed ↔ key ∈ batch.keys ∧ key ∈ merged.counts.keys := Finset.mem_filter
  have hkeys : key ∈ merged.counts.keys ↔ key ∈ before.keys ∪ batch.keys ∧ key ∉ merged.evicted := Finset.mem_sdiff
  by_cases hevicted : key ∈ merged.evicted
  · rw [if_pos hevicted] at hcount
    rw [if_neg fun h => (hkeys.1 (hchanged.1 h).2).2 hevicted, hcount]
    by_cases hzero : before.count key = 0
    · simp [hzero]
    · simp [hevicted, hzero]
  · rw [if_neg hevicted] at hcount
    have hnone : ¬(key ∈ merged.evicted ∧ before.count key ≠ 0) := fun h => hevicted h.1
    rw [if_neg hnone, add_zero]
    by_cases hnew : key ∈ batch.keys
    · rw [if_pos (hchanged.2 ⟨hnew, hkeys.2 ⟨Finset.mem_union_right _ hnew, hevicted⟩⟩)]
    · rw [if_neg fun h => hnew (hchanged.1 h).1, hcount, mergedCount, batch.absent key hnew, add_zero, if_neg hnew]
      split
      · rw [sub_self]
      next hold => rw [before.absent key hold, sub_self]

/-- A key is counted when its rows do not sum to nothing. -/
theorem mem_tableCounts {rows : List Row} {projectDay : ProjectDay} {key : TypedKey} :
    key ∈ (tableCounts rows projectDay).keys ↔ sumOf rows projectDay key ≠ 0 := by
  constructor
  · intro h
    exact (Finset.mem_filter.1 h).2
  · intro h
    by_contra hnot
    exact h ((tableCounts rows projectDay).absent key hnot)

/-- Positive counts that the table's rows sum to are those it is read as. -/
theorem tableCounts_eq {rows : List Row} {projectDay : ProjectDay} {counts : Counts TypedKey}
    (hpositive : counts.Positive) (hsums : ∀ key, sumOf rows projectDay key = counts.count key) :
    tableCounts rows projectDay = counts := by
  refine Counts.ext (Finset.ext fun key => ?_) (funext hsums)
  rw [mem_tableCounts, hsums]
  constructor
  · intro hne
    by_contra hnot
    exact hne (counts.absent key hnot)
  · intro hmem
    exact (hpositive key hmem).ne'

end Sums

section Take

/-- Whether taking some days of an insert stores a Project's day. -/
def Store.Stores (s : Store D) (token : Token) (days : Finset ℤ) (projectDay : ProjectDay) : Prop :=
  token.project = projectDay.project ∧ projectDay.day ∈ s.newDays token days

/-- The days that are new are those that were not taken under the token. -/
theorem Store.mem_newDays {s : Store D} {token : Token} {days : Finset ℤ} {day : ℤ} :
    day ∈ s.newDays token days ↔ day ∈ days ∧ ∀ t ∈ s.taken, ¬(t.token = token ∧ t.day = day) :=
  Finset.mem_filter

/-- Taking a day's counts adds them to the table's sums. -/
theorem Store.sumOf_take (s : Store D) (token : Token) (logs : List (Log D)) (days : Finset ℤ)
    (projectDay : ProjectDay) (key : TypedKey) [Decidable (s.Stores token days projectDay)] :
    sumOf (s.take token logs days).rows projectDay key = sumOf s.rows projectDay key +
      if s.Stores token days projectDay then
        (s.merge projectDay logs).counts.count key - (s.dayCounts projectDay).count key else 0 := by
  rw [take, sumOf_append]
  congr 1
  have hrows := sumOf_flatMap (Finset.sort_nodup (s.newDays token days) (· ≤ ·)) token.project
    (fun day => dayRows ⟨token.project, day⟩ (s.dayCounts ⟨token.project, day⟩) (s.merge ⟨token.project, day⟩ logs))
    key (fun projectDay => (s.merge projectDay logs).counts.count key - (s.dayCounts projectDay).count key)
    (fun day projectDay => by
      rw [merge, sumOf_dayRows]
      split
      next h => rw [h]; rfl
      next => rfl) projectDay
  simp only [Finset.mem_sort] at hrows
  rw [hrows]
  exact if_congr Iff.rfl rfl rfl

/-- The Logs of the inserts stored for a Project's day, in order. -/
def Store.storedLogs (s : Store D) (projectDay : ProjectDay) : List (List (Log D)) :=
  (s.taken.filter fun t => t.projectDay = projectDay).map Taken.logs

/-- Taking a day's counts stores the Logs of the day. -/
theorem Store.storedLogs_take (s : Store D) (token : Token) (logs : List (Log D)) (days : Finset ℤ)
    (projectDay : ProjectDay) [Decidable (s.Stores token days projectDay)] :
    (s.take token logs days).storedLogs projectDay =
      s.storedLogs projectDay ++ if s.Stores token days projectDay then [logs] else [] := by
  obtain ⟨project, day⟩ := projectDay
  rw [storedLogs, take, List.filter_append, List.map_append, storedLogs, List.filter_map]
  congr 1
  by_cases hproject : token.project = project
  · have hfilter : ((s.newDays token days).sort (· ≤ ·)).filter
        ((fun t : Taken D => decide (t.projectDay = ⟨project, day⟩)) ∘ fun day => ⟨token, day, logs⟩) =
        if day ∈ s.newDays token days then [day] else [] := by
      have hsame : ((fun t : Taken D => decide (t.projectDay = ⟨project, day⟩)) ∘ fun day => ⟨token, day, logs⟩) =
          fun other => decide (other = day) := by
        funext other
        simp [Taken.projectDay, hproject]
      rw [hsame, List.filter_eq, (Finset.sort_nodup _ _).count]
      simp only [Finset.mem_sort]
      split <;> rfl
    have hstores : s.Stores token days ⟨project, day⟩ ↔ day ∈ s.newDays token days :=
      and_iff_right hproject
    rw [hfilter, if_congr hstores rfl rfl]
    split <;> rfl
  · have hnone : ¬s.Stores token days ⟨project, day⟩ := fun h => hproject h.1
    rw [if_neg hnone, List.filter_eq_nil_iff.2, List.map_nil, List.map_nil]
    intro other _ h
    exact hproject (ProjectDay.mk.inj (of_decide_eq_true h)).1

/-- Taking no days changes nothing. -/
@[simp]
theorem Store.take_empty (s : Store D) (token : Token) (logs : List (Log D)) : s.take token logs ∅ = s := by
  simp [take, newDays]

/-- What is taken is added to what was. -/
theorem Store.mem_taken_take {s : Store D} {token : Token} {logs : List (Log D)} {days : Finset ℤ} {t : Taken D} :
    t ∈ (s.take token logs days).taken ↔ t ∈ s.taken ∨ ∃ day ∈ s.newDays token days, ⟨token, day, logs⟩ = t := by
  simp [take]

/-- An insert that fails leaves the store as it was. -/
theorem Store.insertKeyCounts_failed (s : Store D) (token : Token) (logs : List (Log D)) (again : Bool)
    (took : Finset ℤ) :
    s.insertKeyCounts token logs again (.failed took) = s.take token logs (countedDays logs ∩ took) := by
  rw [insertKeyCounts]
  split
  next hnone => rw [hnone, Finset.empty_inter, take_empty]
  next => rfl

/-- An insert that answers has taken the rows of its days. -/
theorem Store.rows_insertKeyCounts (s : Store D) (token : Token) (logs : List (Log D)) (again : Bool) :
    (s.insertKeyCounts token logs again .answered).rows = (s.take token logs (countedDays logs)).rows := by
  rw [insertKeyCounts]
  split
  next hnone => rw [hnone, take_empty]
  next => rfl

/-- An insert that answers has taken its days. -/
theorem Store.taken_insertKeyCounts (s : Store D) (token : Token) (logs : List (Log D)) (again : Bool) :
    (s.insertKeyCounts token logs again .answered).taken = (s.take token logs (countedDays logs)).taken := by
  rw [insertKeyCounts]
  split
  next hnone => rw [hnone, take_empty]
  next => rfl

/-- Once an insert is answered, the counts in memory are those before of days it does not count, and
those merged of days of a range that was not inserted before. -/
theorem Store.held_insertKeyCounts {s : Store D} {token : Token} {logs : List (Log D)} {again : Bool}
    {projectDay : ProjectDay} (h : projectDay ∈ (s.insertKeyCounts token logs again .answered).held) :
    (projectDay ∈ s.held ∧ ¬(token.project = projectDay.project ∧ projectDay.day ∈ countedDays logs) ∧
      (s.insertKeyCounts token logs again .answered).counts projectDay = s.counts projectDay) ∨
    again = false ∧ token.project = projectDay.project ∧ projectDay.day ∈ countedDays logs ∧
      (s.insertKeyCounts token logs again .answered).counts projectDay = (s.merge projectDay logs).counts := by
  rw [insertKeyCounts] at h ⊢
  split at h
  next hnone =>
    rw [if_pos hnone]
    refine .inl ⟨h, fun hcounted => ?_, rfl⟩
    rw [hnone] at hcounted
    exact Finset.notMem_empty _ hcounted.2
  next hsome =>
    rw [if_neg hsome]
    have htouched : projectDay ∈ (countedDays logs).image (ProjectDay.mk token.project) ↔
        token.project = projectDay.project ∧ projectDay.day ∈ countedDays logs := by
      rw [Finset.mem_image]
      constructor
      · rintro ⟨day, hday, rfl⟩
        exact ⟨rfl, hday⟩
      · rintro ⟨hproject, hday⟩
        exact ⟨projectDay.day, hday, by rw [hproject]⟩
    have hsubset : ∀ held touched : Finset ProjectDay,
        (if held.card > keptCountDays then held ∩ touched else held) ⊆ held := by
      intro held touched
      split
      · exact Finset.inter_subset_left
      · exact Finset.Subset.refl held
    have hheld := hsubset _ _ h
    by_cases hcounted : token.project = projectDay.project ∧ projectDay.day ∈ countedDays logs
    · refine .inr ⟨?_, hcounted.1, hcounted.2, if_pos (htouched.2 hcounted)⟩
      by_contra hagain
      rw [if_pos (Bool.not_eq_false _ ▸ hagain), Finset.mem_sdiff] at hheld
      exact hheld.2 (htouched.2 hcounted)
    · refine .inl ⟨?_, hcounted, if_neg fun hmem => hcounted (htouched.1 hmem)⟩
      split at hheld
      · exact (Finset.mem_sdiff.1 hheld).1
      · exact (Finset.mem_union.1 hheld).resolve_right fun hmem => hcounted (htouched.1 hmem)

end Take

section Folded

/-- The Logs of the stored ranges merged one after another. -/
def foldedCounts (stored : List (List (Log D))) (day : ℤ) : Counts TypedKey :=
  stored.foldl (fun counts logs => (mergeKeyCounts counts (byDay logs day) keyCountsKept).counts) .empty

/-- How many Logs of a day carried a key. -/
def carried (stored : List (List (Log D))) (day : ℤ) (key : TypedKey) : ℕ :=
  (stored.flatten.filter fun log => LogDay log.time = day ∧ key ∈ logKeys log).length

/-- The total of all counts merged. -/
def totalMerged (stored : List (List (Log D))) (day : ℤ) : ℤ := (stored.map fun logs => (byDay logs day).sum).sum

/-- Counts of Logs are positive. -/
theorem positive_byDay (logs : List (Log D)) (day : ℤ) : (byDay logs day).Positive := fun _ hkey =>
  Nat.cast_pos.2 (List.count_pos_iff.2 (List.mem_toFinset.1 hkey))

/-- A key's count of a day is the number of the day's Logs that have it. -/
theorem count_dayKeys (logs : List (Log D)) (day : ℤ) (key : TypedKey) :
    (dayKeys logs day).count key = (logs.filter fun log => LogDay log.time = day ∧ key ∈ logKeys log).length := by
  induction logs with
  | nil => rfl
  | cons log logs ih =>
    rw [dayKeys, List.filter_cons, List.filter_cons]
    by_cases hday : LogDay log.time = day
    · have hcount : (logKeys log).count key = if key ∈ logKeys log then 1 else 0 := (nodup_logKeys log).count
      rw [if_pos (decide_eq_true hday), List.flatMap_cons, List.count_append, hcount]
      change _ + (dayKeys logs day).count key = _
      rw [ih]
      by_cases hkey : key ∈ logKeys log
      · simp [hday, hkey, Nat.add_comm]
      · simp [hday, hkey]
    · have hnot : ¬(LogDay log.time = day ∧ key ∈ logKeys log) := fun h => hday h.1
      rw [if_neg fun h => hday (of_decide_eq_true h), if_neg fun h => hnot (of_decide_eq_true h)]
      exact ih

/-- The counts are folded one insert after another. -/
theorem foldedCounts_append (stored : List (List (Log D))) (logs : List (Log D)) (day : ℤ) :
    foldedCounts (stored ++ [logs]) day =
      (mergeKeyCounts (foldedCounts stored day) (byDay logs day) keyCountsKept).counts :=
  List.foldl_append

/-- The folded counts are sound of all that the inserts carried. -/
theorem sound_foldedCounts (stored : List (List (Log D))) (day : ℤ) :
    Sound keyCountsKept (foldedCounts stored day) (fun key => carried stored day key) (totalMerged stored day) := by
  induction stored using List.reverseRecOn with
  | nil => exact Sound.empty keyCountsKept
  | append_singleton stored logs ih =>
    have hmerge := ih.merge (positive_byDay logs day)
      (isMerge_mergeKeyCounts (by decide) (foldedCounts stored day) (byDay logs day))
    have hcarried : (fun key => (carried (stored ++ [logs]) day key : ℤ)) =
        fun key => (carried stored day key : ℤ) + (byDay logs day).count key := by
      funext key
      rw [carried, List.flatten_append, List.filter_append, List.length_append, Nat.cast_add, List.flatten_singleton,
        ← count_dayKeys logs]
      rfl
    have htotal : totalMerged (stored ++ [logs]) day = totalMerged stored day + (byDay logs day).sum := by
      simp [totalMerged]
    rw [foldedCounts_append, hcarried, htotal]
    exact hmerge

end Folded

/-- A day's key counts in the table are those of the stored ranges, and a sound top-K of their Logs. -/
structure Store.KeepsTopKeys (s : Store D) (projectDay : ProjectDay) : Prop where
  folded : tableCounts s.rows projectDay = foldedCounts (s.storedLogs projectDay) projectDay.day
  card : (tableCounts s.rows projectDay).keys.card ≤ keyCountsKept
  atLeast : ∀ key ∈ (tableCounts s.rows projectDay).keys,
    carried (s.storedLogs projectDay) projectDay.day key ≤ (tableCounts s.rows projectDay).count key
  sum : (tableCounts s.rows projectDay).sum ≤ totalMerged (s.storedLogs projectDay) projectDay.day
  heavy : ∀ key, totalMerged (s.storedLogs projectDay) projectDay.day <
    keyCountsKept * carried (s.storedLogs projectDay) projectDay.day key → key ∈ (tableCounts s.rows projectDay).keys

/-- A table that holds the folded counts keeps the top keys. -/
theorem Store.keepsTopKeys_of_folded {s : Store D} {projectDay : ProjectDay}
    (h : tableCounts s.rows projectDay = foldedCounts (s.storedLogs projectDay) projectDay.day) :
    s.KeepsTopKeys projectDay := by
  have hsound := sound_foldedCounts (s.storedLogs projectDay) projectDay.day
  rw [← h] at hsound
  exact ⟨h, hsound.card, hsound.atLeast, hsound.sum, fun key hkey => hsound.mem_of_lt hkey⟩

section Runs

/-- The counts of a Project's day merged as it was stored. -/
def Store.folded (s : Store D) (projectDay : ProjectDay) : Counts TypedKey :=
  foldedCounts (s.storedLogs projectDay) projectDay.day

namespace System

/-- ClickHouse took a day of the range that goes again. -/
def TookAgain (s : System D) (projectDay : ProjectDay) : Prop :=
  s.again projectDay.project ∧ ∃ t ∈ s.store.taken,
    t.token = s.token projectDay.project (s.recorded projectDay.project) ∧ t.day = projectDay.day

/-- What ties the counts in memory, the table and the tokens together. -/
structure Inv (s : System D) : Prop where
  /-- The table's rows sum to the stored ranges merged. -/
  sums : ∀ projectDay key, sumOf s.store.rows projectDay key = (s.store.folded projectDay).count key
  /-- Counts in memory are the table's, but for the days taken of a range that goes again. -/
  held : ∀ projectDay ∈ s.store.held,
    s.store.counts projectDay = s.store.folded projectDay ∨ s.TookAgain projectDay
  /-- A token taken is behind the cursor, or that of the range that goes again. -/
  tokens : ∀ t ∈ s.store.taken, t.token.upTo ≤ s.cursor t.token.project ∨
    s.again t.token.project ∧ t.token = s.token t.token.project (s.recorded t.token.project)

/-- The invariant holds before anything is inserted. -/
theorem Inv.init : (init : System D).Inv where
  sums _ _ := rfl
  held _ h := absurd h (Finset.notMem_empty _)
  tokens _ h := absurd h List.not_mem_nil

/-- The table holds the folded counts. -/
theorem Inv.tableCounts_eq {s : System D} (h : s.Inv) (projectDay : ProjectDay) :
    tableCounts s.store.rows projectDay = s.store.folded projectDay :=
  KeyCounts.tableCounts_eq (sound_foldedCounts _ _).positive (h.sums projectDay)

/-- A day not taken of the range that goes again is merged from what is stored. -/
theorem Inv.dayCounts_eq {s : System D} (h : s.Inv) {projectDay : ProjectDay} (hnot : ¬s.TookAgain projectDay) :
    s.store.dayCounts projectDay = s.store.folded projectDay := by
  rw [Store.dayCounts]
  split
  next hheld => exact (h.held projectDay hheld).resolve_right hnot
  next => exact h.tableCounts_eq projectDay

/-- An insert of a range that is not behind the cursor: the recorded one again, or the next. -/
structure Attempts (s : System D) (project : ProjectID) (upTo : UUID) : Prop where
  lt : s.cursor project < upTo
  again : s.again project → upTo = s.recorded project

/-- A day the attempt newly stores was not taken before. -/
theorem Inv.not_tookAgain {s : System D} {project : ProjectID} {upTo : UUID} (hattempt : s.Attempts project upTo)
    {days : Finset ℤ} {projectDay : ProjectDay} (hstores : s.store.Stores (s.token project upTo) days projectDay) :
    ¬s.TookAgain projectDay := by
  rintro ⟨hagain, t, ht, htoken, hday⟩
  obtain ⟨hproject, hnew⟩ := hstores
  obtain rfl : project = projectDay.project := hproject
  refine (Store.mem_newDays.1 hnew).2 t ht ⟨?_, hday⟩
  rw [htoken, hattempt.again hagain]

/-- What an attempt sends of a day it newly stores is what merging its Logs changes. -/
theorem Inv.merge_eq {s : System D} (h : s.Inv) {projectDay : ProjectDay} (hnot : ¬s.TookAgain projectDay)
    (logs : List (Log D)) :
    (s.store.merge projectDay logs).counts =
      foldedCounts (s.store.storedLogs projectDay ++ [logs]) projectDay.day := by
  rw [Store.merge, h.dayCounts_eq hnot, foldedCounts_append]
  rfl

/-- Taking days of an attempt stores them. -/
theorem Inv.take_sums {s : System D} (h : s.Inv) {project : ProjectID} {upTo : UUID}
    (hattempt : s.Attempts project upTo) (logs : List (Log D)) (days : Finset ℤ) (projectDay : ProjectDay)
    (key : TypedKey) :
    sumOf (s.store.take (s.token project upTo) logs days).rows projectDay key =
      ((s.store.take (s.token project upTo) logs days).folded projectDay).count key := by
  classical
  rw [Store.sumOf_take, Store.folded, Store.storedLogs_take, h.sums]
  split
  next hstores =>
    have hnot := Inv.not_tookAgain hattempt hstores
    rw [h.merge_eq hnot, h.dayCounts_eq hnot]
    exact add_sub_cancel _ _
  next =>
    rw [add_zero, List.append_nil]
    rfl

/-- A fresh range has no token taken. -/
theorem Inv.stores_of_fresh {s : System D} (h : s.Inv) {project : ProjectID} {upTo : UUID}
    (hattempt : s.Attempts project upTo) (hfresh : ¬s.again project) {days : Finset ℤ} {day : ℤ} (hday : day ∈ days) :
    s.store.Stores (s.token project upTo) days ⟨project, day⟩ := by
  refine ⟨rfl, Store.mem_newDays.2 ⟨hday, ?_⟩⟩
  rintro t ht ⟨htoken, -⟩
  rcases h.tokens t ht with hle | ⟨hagain, -⟩
  · rw [htoken] at hle
    exact absurd hattempt.lt (not_lt.2 hle)
  · rw [htoken] at hagain
    exact hfresh hagain

/-- What an attempt leaves in memory and in ClickHouse, of the days that reached it. -/
structure Stored (s : System D) (store : Store D) (project : ProjectID) (upTo : UUID) (logs : List (Log D))
    (days : Finset ℤ) : Prop where
  rows : store.rows = (s.store.take (s.token project upTo) logs days).rows
  taken : store.taken = (s.store.take (s.token project upTo) logs days).taken
  held : ∀ projectDay ∈ store.held,
    projectDay ∈ s.store.held ∧ store.counts projectDay = s.store.counts projectDay ∨
      ¬s.again project ∧ project = projectDay.project ∧ projectDay.day ∈ days ∧
        store.counts projectDay = (s.store.merge projectDay logs).counts

section Stored

variable {s : System D} {store : Store D} {project : ProjectID} {upTo : UUID} {logs : List (Log D)} {days : Finset ℤ}

/-- The Logs that are stored are those before and those the insert took. -/
theorem Stored.storedLogs_eq (hstored : s.Stored store project upTo logs days) (projectDay : ProjectDay) :
    store.storedLogs projectDay = (s.store.take (s.token project upTo) logs days).storedLogs projectDay := by
  rw [Store.storedLogs, hstored.taken]
  rfl

/-- The counts to hold are those before with the insert's. -/
theorem Stored.folded_eq (hstored : s.Stored store project upTo logs days) (projectDay : ProjectDay) :
    store.folded projectDay = (s.store.take (s.token project upTo) logs days).folded projectDay := by
  rw [Store.folded, hstored.storedLogs_eq]
  rfl

/-- The rows sum to what is held, with the insert's. -/
theorem Stored.sums (hstored : s.Stored store project upTo logs days) (h : s.Inv)
    (hattempt : s.Attempts project upTo) (projectDay : ProjectDay) (key : TypedKey) :
    sumOf store.rows projectDay key = (store.folded projectDay).count key := by
  rw [hstored.rows, hstored.folded_eq, h.take_sums hattempt]

/-- A token taken once the attempt is made is the attempt's, is behind the cursor, or is the recorded range's. -/
theorem Stored.token (hstored : s.Stored store project upTo logs days) (h : s.Inv)
    (hattempt : s.Attempts project upTo) {t : Taken D} (ht : t ∈ store.taken) :
    t.token = s.token project upTo ∨ t.token.upTo ≤ s.cursor t.token.project ∨
      t.token.project ≠ project ∧ s.again t.token.project ∧
        t.token = s.token t.token.project (s.recorded t.token.project) := by
  rw [hstored.taken, Store.mem_taken_take] at ht
  rcases ht with hold | ⟨day, -, rfl⟩
  · rcases h.tokens t hold with hle | ⟨hagain, htoken⟩
    · exact .inr (.inl hle)
    · by_cases hproject : t.token.project = project
      · rw [hproject] at hagain htoken
        exact .inl (by rw [htoken, hattempt.again hagain])
      · exact .inr (.inr ⟨hproject, hagain, htoken⟩)
  · exact .inl rfl

/-- A day the attempt does not newly store is as it was. -/
theorem Stored.folded_of_not_stores (hstored : s.Stored store project upTo logs days) {projectDay : ProjectDay}
    (hnot : ¬s.store.Stores (s.token project upTo) days projectDay) :
    store.folded projectDay = s.store.folded projectDay := by
  classical
  rw [hstored.folded_eq, Store.folded, Store.storedLogs_take, if_neg hnot, List.append_nil]
  rfl

/-- Counts merged of a fresh range are what is then stored. -/
theorem Stored.merge_eq (hstored : s.Stored store project upTo logs days) (h : s.Inv)
    (hattempt : s.Attempts project upTo) (hfresh : ¬s.again project) {projectDay : ProjectDay}
    (hproject : project = projectDay.project) (hday : projectDay.day ∈ days) :
    (s.store.merge projectDay logs).counts = store.folded projectDay := by
  classical
  subst hproject
  have hstores := h.stores_of_fresh hattempt hfresh hday
  rw [h.merge_eq (Inv.not_tookAgain hattempt hstores), hstored.folded_eq, Store.folded, Store.storedLogs_take,
    if_pos hstores]

/-- An attempt that leaves its range to go again keeps the invariant. -/
theorem Inv.record (h : s.Inv) (hattempt : s.Attempts project upTo)
    (hstored : s.Stored store project upTo logs days) : ((s.setStore store).record project upTo).Inv := by
  have hagain : ((s.setStore store).record project upTo).again project = true := by
    simp [again, hattempt.lt]
  have htoken : s.token project upTo = ((s.setStore store).record project upTo).token project
      (((s.setStore store).record project upTo).recorded project) := by
    simp [token]
  have hother : ∀ other, other ≠ project →
      ((s.setStore store).record project upTo).again other = s.again other ∧
      ((s.setStore store).record project upTo).token other (((s.setStore store).record project upTo).recorded other) =
        s.token other (s.recorded other) := by
    intro other hne
    simp [again, token, record_recorded_of_ne _ _ _ hne]
  refine ⟨fun projectDay key => hstored.sums h hattempt projectDay key, fun projectDay hheld => ?_, fun t ht => ?_⟩
  · rcases hstored.held projectDay hheld with ⟨hheld, hcounts⟩ | ⟨hfresh, hproject, hday, hcounts⟩
    · by_cases hstores : s.store.Stores (s.token project upTo) days projectDay
      · -- Newly stored under what is now the recorded range's token.
        obtain ⟨hproject, hnew⟩ := hstores
        obtain rfl : project = projectDay.project := hproject
        refine .inr ⟨hagain, ⟨s.token projectDay.project upTo, projectDay.day, logs⟩, ?_, htoken, rfl⟩
        rw [record_store, setStore_store, hstored.taken]
        exact Store.mem_taken_take.2 (.inr ⟨_, hnew, rfl⟩)
      · have hsame := hstored.folded_of_not_stores hstores
        rcases h.held projectDay hheld with hin | ⟨hwas, t, ht, htook, hday⟩
        · exact .inl (hcounts.trans (hin.trans hsame.symm))
        · have hmem : t ∈ store.taken := by
            rw [hstored.taken]
            exact Store.mem_taken_take.2 (.inl ht)
          refine .inr ?_
          by_cases hproject : projectDay.project = project
          · subst hproject
            rw [← hattempt.again hwas] at htook
            exact ⟨hagain, t, hmem, htook.trans htoken, hday⟩
          · obtain ⟨hagain', htoken'⟩ := hother _ hproject
            exact ⟨hagain'.trans hwas, t, hmem, htook.trans htoken'.symm, hday⟩
    · exact .inl (hcounts.trans (hstored.merge_eq h hattempt hfresh hproject hday))
  · rcases hstored.token h hattempt ht with hnew | hle | ⟨hne, hwas, htook⟩
    · have hproject : t.token.project = project := by rw [hnew]; rfl
      exact .inr (hproject.symm ▸ ⟨hagain, hnew.trans htoken⟩)
    · exact .inl hle
    · obtain ⟨hagain', htoken'⟩ := hother _ hne
      exact .inr ⟨hagain'.trans hwas, htook.trans htoken'.symm⟩

/-- An attempt whose range the cursor moves past keeps the invariant, if no counts left in memory of the
Project's days are behind. -/
theorem Inv.done (h : s.Inv) (hattempt : s.Attempts project upTo)
    (hstored : s.Stored store project upTo logs days)
    (hcounted : ∀ projectDay ∈ store.held, projectDay.project = project →
      store.counts projectDay = store.folded projectDay) :
    (((s.setStore store).record project upTo).move project upTo).Inv := by
  have hrecord := h.record hattempt hstored
  have hother : ∀ other, other ≠ project →
      (((s.setStore store).record project upTo).move project upTo).again other =
        ((s.setStore store).record project upTo).again other ∧
      ∀ last, (((s.setStore store).record project upTo).move project upTo).token other last =
        ((s.setStore store).record project upTo).token other last := by
    intro other hne
    refine ⟨?_, fun last => ?_⟩
    · rw [again, again, move_cursor_of_ne _ _ _ hne]
      rfl
    · rw [token, token, move_cursor_of_ne _ _ _ hne]
  refine ⟨hrecord.sums, fun projectDay hheld => ?_, fun t ht => ?_⟩
  · by_cases hproject : projectDay.project = project
    · exact .inl (hcounted projectDay hheld hproject)
    · rcases hrecord.held projectDay hheld with hin | ⟨hwas, t, ht, htook, hday⟩
      · exact .inl hin
      · obtain ⟨hagain', htoken'⟩ := hother _ hproject
        exact .inr ⟨hagain'.trans hwas, t, ht, htook.trans (htoken' _).symm, hday⟩
  · rcases hstored.token h hattempt ht with hnew | hle | ⟨hne, hwas, htook⟩
    · refine .inl ?_
      rw [hnew]
      exact (move_cursor _ _ _).ge
    · refine .inl ?_
      by_cases hproject : t.token.project = project
      · rw [hproject] at hle ⊢
        rw [move_cursor]
        exact hle.trans hattempt.lt.le
      · rw [move_cursor_of_ne _ _ _ hproject]
        exact hle
    · refine .inr ?_
      obtain ⟨hagain', htoken'⟩ := hother _ hne
      refine ⟨hagain'.trans ?_, htook.trans ((htoken' _).trans ?_).symm⟩
      · rw [← hwas, again, again, record_cursor, record_recorded_of_ne _ _ _ hne]
        rfl
      · rw [token, token, record_cursor, move_recorded, record_recorded_of_ne _ _ _ hne]
        rfl

/-- An insert that was not sent stores nothing. -/
theorem Stored.unsent (s : System D) (project : ProjectID) (upTo : UUID) (logs : List (Log D)) :
    s.Stored s.store project upTo logs ∅ where
  rows := by rw [Store.take_empty]
  taken := by rw [Store.take_empty]
  held _ hheld := .inl ⟨hheld, rfl⟩

/-- An insert that failed stores the days it took. -/
theorem Stored.failed (s : System D) (project : ProjectID) (upTo : UUID) (logs : List (Log D)) (took : Finset ℤ) :
    s.Stored (s.insert project upTo logs (.failed took)).store project upTo logs (countedDays logs ∩ took) := by
  rw [insert, setStore_store, Store.insertKeyCounts_failed]
  exact ⟨rfl, rfl, fun _ hheld => .inl ⟨hheld, rfl⟩⟩

/-- An insert that answered stores its days. -/
theorem Stored.answered (s : System D) (project : ProjectID) (upTo : UUID) (logs : List (Log D)) :
    s.Stored (s.insert project upTo logs .answered).store project upTo logs (countedDays logs) where
  rows := Store.rows_insertKeyCounts _ _ _ _
  taken := Store.taken_insertKeyCounts _ _ _ _
  held projectDay hheld := by
    rcases Store.held_insertKeyCounts hheld with ⟨hheld, -, hcounts⟩ | ⟨hagain, hproject, hday, hcounts⟩
    · exact .inl ⟨hheld, hcounts⟩
    · exact .inr ⟨Bool.eq_false_iff.1 hagain, hproject, hday, hcounts⟩

end Stored

/-- A restart, which forgets what is held, keeps the invariant. -/
theorem Inv.restart {s : System D} (h : s.Inv) : (s.setStore { s.store with held := ∅ }).Inv :=
  ⟨h.sums, fun _ hheld => absurd hheld (Finset.notMem_empty _), h.tokens⟩

/-- The counts an attempt that is done leaves in memory are the table's. -/
theorem Inv.held_done {s : System D} (h : s.Inv) {project : ProjectID} {upTo : UUID} {logs : List (Log D)}
    (hattempt : s.Attempts project upTo) (hbehind : s.countsDaysBehind (.attempt project upTo logs .done))
    {projectDay : ProjectDay} (hheld : projectDay ∈ (s.insert project upTo logs .answered).store.held)
    (hproject : projectDay.project = project) :
    (s.insert project upTo logs .answered).store.counts projectDay =
      (s.insert project upTo logs .answered).store.folded projectDay := by
  have hstored := Stored.answered s project upTo logs
  rcases Store.held_insertKeyCounts hheld with ⟨hwas, huncounted, hcounts⟩ | ⟨hagain, hproject', hday, hcounts⟩
  · have hsame := hstored.folded_of_not_stores (fun hstores : s.store.Stores _ _ projectDay =>
      huncounted ⟨hstores.1, (Store.mem_newDays.1 hstores.2).1⟩)
    have hin : s.store.counts projectDay = tableCounts s.store.rows projectDay := by
      by_contra hne
      subst hproject
      exact huncounted ⟨rfl, hbehind projectDay.day hwas hne⟩
    exact hcounts.trans ((hin.trans (h.tableCounts_eq projectDay)).trans hsame.symm)
  · exact hcounts.trans (hstored.merge_eq h hattempt (Bool.eq_false_iff.1 hagain) hproject' hday)

/-- An attempt keeps the invariant, whatever its ending. -/
theorem Inv.attempt {s : System D} (h : s.Inv) {project : ProjectID} {upTo : UUID} {logs : List (Log D)}
    {ending : Ending} (hattempt : s.Attempts project upTo)
    (hbehind : s.countsDaysBehind (.attempt project upTo logs ending)) : (s.attempt project upTo logs ending).Inv := by
  cases ending with
  | unsent => exact h.record hattempt (Stored.unsent s project upTo logs)
  | unanswered took => exact h.record hattempt (Stored.failed s project upTo logs took)
  | inserted => exact h.record hattempt (Stored.answered s project upTo logs)
  | done =>
    exact h.done hattempt (Stored.answered s project upTo logs) fun projectDay hheld hproject =>
      h.held_done hattempt hbehind hheld hproject

/-- Every step keeps the invariant. -/
theorem Inv.step {s t : System D} (h : s.Inv) {a : Action D} (hbehind : s.countsDaysBehind a)
    (hstep : s.step a = some t) : t.Inv := by
  cases a with
  | restart =>
    obtain rfl := Option.some.inj hstep
    exact h.restart
  | attempt project upTo logs ending =>
    rw [System.step] at hstep
    split at hstep
    next hagain =>
      split at hstep
      next hupTo =>
        obtain rfl := Option.some.inj hstep
        exact h.attempt ⟨hupTo ▸ of_decide_eq_true hagain, fun _ => hupTo⟩ hbehind
      next => exact absurd hstep (Option.some_ne_none _).symm
    next hfresh =>
      split at hstep
      next hlt =>
        obtain rfl := Option.some.inj hstep
        exact h.attempt ⟨hlt, fun hagain => absurd hagain hfresh⟩ hbehind
      next => exact absurd hstep (Option.some_ne_none _).symm

end System

end Runs

end SolidTrace.KeyCounts
