import SolidTrace.KeyCounts.TopKeys

/-!
# A day left behind

A Log transform may be saved between two attempts to store a range. When ClickHouse took the first without
an answer, and the second has no counted Log of the day any more, the counts in memory stay behind the
table's, and what is inserted next is worked out from them.
-/

namespace SolidTrace.KeyCounts

open Normalise SpaceSaving LogProcessing Storage Transition
open LogQuery (AttributeType)

section Room

variable {K : Type*} [LinearOrder K] {counts batch : Counts K} {keep : ℕ}

/-- While there is room, merging adds the batch's counts and evicts no key. -/
theorem count_mergeKeyCounts_of_room (hroom : counts.keys.card < keep)
    (hfits : (counts.keys ∪ batch.keys).card ≤ keep) (k : K) :
    (mergeKeyCounts counts batch keep).counts.count k = counts.count k + batch.count k := by
  have hevicted : (mergeKeyCounts counts batch keep).evicted = ∅ := by
    rw [← Finset.card_eq_zero, card_evicted]
    omega
  have hfloor : floorOf counts keep = 0 := if_neg (not_le.2 hroom)
  rw [count_mergeKeyCounts, hevicted, if_neg (Finset.notMem_empty k), mergedCount, hfloor]
  by_cases hold : k ∈ counts.keys
  · rw [if_pos hold]
  · rw [if_neg hold, counts.absent k hold]
    by_cases hnew : k ∈ batch.keys
    · rw [if_pos hnew]
    · rw [if_neg hnew, batch.absent k hnew, add_zero]

/-- A merge keeps no more keys than the two sides have. -/
theorem card_keys_mergeKeyCounts_le (counts batch : Counts K) (keep : ℕ) :
    (mergeKeyCounts counts batch keep).counts.keys.card ≤ counts.keys.card + batch.keys.card :=
  (Finset.card_le_card Finset.sdiff_subset).trans (Finset.card_union_le _ _)

end Room

section Names

/-- One of many names. -/
def nameOf (i : ℕ) : Bytes :=
  Utf8.bytes (String.ofList (List.replicate (i / 32 + 1) 'a' ++ List.replicate (i % 32) 'b'))

def keyOf (i : ℕ) : TypedKey := ⟨.bool, nameOf i⟩

/-- A Log with an Attribute for each of some names. -/
def logOf (is : List ℕ) : Log ℚ :=
  let none : Log ℚ := .none
  { none with attributes :=
    { none.attributes with bool := is.foldl (fun entries i => entries.insert (nameOf i) true) ∅ } }

/-- Names of different numbers differ. -/
theorem nameOf_injective : Function.Injective nameOf := by
  intro i j h
  have htexts := congrArg Utf8.text h
  rw [nameOf, nameOf, Utf8.text_bytes, Utf8.text_bytes] at htexts
  have hchars := congrArg String.toList htexts
  rw [String.toList_ofList, String.toList_ofList] at hchars
  have ha := congrArg (List.count 'a') hchars
  have hb := congrArg (List.count 'b') hchars
  simp [List.count_append, List.count_replicate] at ha hb
  omega

/-- Keys of different numbers differ. -/
theorem keyOf_injective : Function.Injective keyOf := fun _ _ h => nameOf_injective (TypedKey.mk.inj h).2

/-- Each of the names is counted. -/
theorem countable_nameOf (i : ℕ) : countable (nameOf i) = true := by
  have hnul : ¬(nameOf i).contains 0 := by
    rw [List.contains_iff_mem, nameOf, Utf8.bytes_eq_flatMap, String.toList_ofList, List.mem_flatMap]
    rintro ⟨c, hc, hzero⟩
    rcases List.mem_append.1 hc with ha | hb
    · rw [List.eq_of_mem_replicate ha] at hzero
      exact absurd hzero (by decide)
    · rw [List.eq_of_mem_replicate hb] at hzero
      exact absurd hzero (by decide)
  rw [countable, Bool.eq_false_iff.2 hnul, nameOf, Utf8.fromUTF8?_bytes]
  rfl

/-- The names of a Log are those of its numbers. -/
theorem mem_names {is : List ℕ} {name : Bytes} {entries : AList fun _ : Bytes => Bool} :
    name ∈ (is.foldl (fun entries i => entries.insert (nameOf i) true) entries).keys ↔
      name ∈ entries.keys ∨ ∃ i ∈ is, nameOf i = name := by
  induction is generalizing entries with
  | nil => simp
  | cons i is ih =>
    rw [List.foldl_cons, ih]
    simp only [← AList.mem_keys, AList.mem_insert, List.exists_mem_cons_iff]
    rw [eq_comm, or_assoc, or_left_comm]

/-- The keys of a Log are those of its numbers. -/
theorem mem_logKeys_logOf {is : List ℕ} {key : TypedKey} : key ∈ logKeys (logOf is) ↔ ∃ i ∈ is, keyOf i = key := by
  rw [mem_logKeys]
  constructor
  · rintro ⟨-, hname, -⟩
    obtain ⟨type, name⟩ := key
    cases type with
    | bool =>
      obtain ⟨i, hi, rfl⟩ := (mem_names.1 hname).resolve_left List.not_mem_nil
      exact ⟨i, hi, rfl⟩
    | string => exact absurd hname List.not_mem_nil
    | number => exact absurd hname List.not_mem_nil
    | json => exact absurd hname List.not_mem_nil
  · rintro ⟨i, hi, rfl⟩
    have htype : AttributeType.bool ∈ countedTypes := by decide
    exact ⟨htype, mem_names.2 (.inr ⟨i, hi, rfl⟩), countable_nameOf i⟩

/-- A single Log's keys are counted on its day. -/
theorem dayKeys_logOf (is : List ℕ) : dayKeys [logOf is] 0 = logKeys (logOf is) := List.append_nil _

/-- A single Log has the one day. -/
theorem countedDays_logOf {is : List ℕ} (h : is ≠ []) : countedDays [logOf is] = {0} := by
  obtain ⟨i, hi⟩ := List.exists_mem_of_ne_nil is h
  have hmem : keyOf i ∈ logKeys (logOf is) := mem_logKeys_logOf.2 ⟨i, hi, rfl⟩
  have hsome : (logKeys (logOf is)).isEmpty = false := by
    rw [List.isEmpty_eq_false_iff]
    exact List.ne_nil_of_mem hmem
  rw [countedDays, List.filter_cons, hsome]
  rfl

/-- Each key of a single Log is counted once. -/
theorem count_byDay_logOf (is : List ℕ) (i : ℕ) :
    (byDay [logOf is] 0).count (keyOf i) = if i ∈ is then 1 else 0 := by
  have hcount : (logKeys (logOf is)).count (keyOf i) = if keyOf i ∈ logKeys (logOf is) then 1 else 0 :=
    (nodup_logKeys _).count
  have hmem : keyOf i ∈ logKeys (logOf is) ↔ i ∈ is := by
    rw [mem_logKeys_logOf]
    constructor
    · rintro ⟨j, hj, heq⟩
      exact keyOf_injective heq ▸ hj
    · intro hi
      exact ⟨i, hi, rfl⟩
  change ((dayKeys [logOf is] 0).count (keyOf i) : ℤ) = _
  rw [dayKeys_logOf, hcount, if_congr hmem rfl rfl]
  split <;> rfl

/-- A single Log has no more keys than numbers. -/
theorem card_byDay_logOf_le (is : List ℕ) : (byDay [logOf is] 0).keys.card ≤ is.length := by
  have hsubset : (byDay [logOf is] 0).keys ⊆ is.toFinset.image keyOf := by
    intro key hkey
    have hmem : key ∈ dayKeys [logOf is] 0 := List.mem_toFinset.1 hkey
    rw [dayKeys_logOf, mem_logKeys_logOf] at hmem
    obtain ⟨i, hi, rfl⟩ := hmem
    exact Finset.mem_image_of_mem _ (List.mem_toFinset.2 hi)
  exact (Finset.card_le_card hsubset).trans (Finset.card_image_le.trans (List.toFinset_card_le is))

end Names

section Runs

/-- The id of a Log batch. -/
def batchID (n : UInt8) : UUID := ⟨List.replicate 15 0 ++ [n], rfl⟩

/-- The Project's day the runs are about. -/
def today : ProjectDay := ⟨1, 0⟩

/-- An insert that is answered leaves the counts that it merged in memory. -/
theorem Store.held_today {s : Store ℚ} {token : Token} {is : List ℕ} (his : is ≠ []) (htoken : token.project = 1) :
    today ∈ (s.insertKeyCounts token [logOf is] false .answered).held ∧
      (s.insertKeyCounts token [logOf is] false .answered).counts today = (s.merge today [logOf is]).counts := by
  have htouched : today ∈ ({0} : Finset ℤ).image (ProjectDay.mk token.project) :=
    Finset.mem_image.2 ⟨0, Finset.mem_singleton_self 0, by rw [htoken]; rfl⟩
  rw [insertKeyCounts, countedDays_logOf his, if_neg (Finset.singleton_ne_empty 0)]
  refine ⟨?_, if_pos htouched⟩
  simp only [Bool.false_eq_true, if_false]
  split
  · exact Finset.mem_inter.2 ⟨Finset.mem_union_right _ htouched, htouched⟩
  · exact Finset.mem_union_right _ htouched

/-- Nothing was inserted before, so nothing is made again. -/
theorem again_init : (System.init : System ℚ).again 1 = false := by decide

section Ranges

variable (is : List ℕ) (i j : ℕ)

/-- A range that is stored. -/
def after₁ : System ℚ := System.init.attempt 1 (batchID 1) [logOf is] .done

/-- ClickHouse takes the next range, and does not answer. -/
def after₂ : System ℚ := (after₁ is).attempt 1 (batchID 2) [logOf [i]] (.unanswered {0})

/-- The range goes again, and has no Log left. -/
def after₃ : System ℚ := (after₂ is i).attempt 1 (batchID 2) [] .done

/-- One more range is stored. -/
def after₄ : System ℚ := (after₃ is i).attempt 1 (batchID 3) [logOf [j]] .done

/-- The first range is inserted and answered. -/
theorem store₁ : (after₁ is).store =
    Store.empty.insertKeyCounts ((System.init : System ℚ).token 1 (batchID 1)) [logOf is] false .answered := by
  rw [after₁, System.attempt, System.move_store, System.record_store, System.insert, System.setStore_store, again_init]
  rfl

/-- The second range is taken, and memory is as it was. -/
theorem store₂ : (after₂ is i).store = (after₁ is).store.take ((after₁ is).token 1 (batchID 2)) [logOf [i]] {0} := by
  rw [after₂, System.attempt, System.record_store, System.insert, System.setStore_store, Store.insertKeyCounts_failed,
    countedDays_logOf (List.cons_ne_nil i []), Finset.inter_self]

/-- The second range without a Log changes nothing. -/
theorem store₃ : (after₃ is i).store = (after₂ is i).store := by
  rw [after₃, System.attempt, System.move_store, System.record_store, System.insert, System.setStore_store,
    Store.insertKeyCounts]
  exact if_pos rfl

/-- The cursor is past the first range. -/
theorem cursor₁ : (after₁ is).cursor 1 = batchID 1 := System.move_cursor _ _ _

/-- The first range is the one recorded. -/
theorem recorded₁ : (after₁ is).recorded 1 = batchID 1 := by
  rw [after₁, System.attempt, System.move_recorded, System.record_recorded]

/-- The cursor is past the second range, though it came back empty. -/
theorem cursor₃ : (after₃ is i).cursor 1 = batchID 2 := System.move_cursor _ _ _

/-- The second range is the one recorded. -/
theorem recorded₃ : (after₃ is i).recorded 1 = batchID 2 := by
  rw [after₃, System.attempt, System.move_recorded, System.record_recorded]

/-- The first range is one that can be attempted. -/
theorem attempts₁ : (System.init : System ℚ).Attempts 1 (batchID 1) :=
  ⟨by decide, fun h => absurd h (by rw [again_init]; exact Bool.false_ne_true)⟩

/-- The second range is not one made again. -/
theorem fresh₁ : ¬(after₁ is).again 1 := by
  rw [System.again, cursor₁, recorded₁]
  decide

/-- The second range is one that can be attempted. -/
theorem attempts₂ : (after₁ is).Attempts 1 (batchID 2) :=
  ⟨by rw [cursor₁]; decide, fun h => absurd h (fresh₁ is)⟩

/-- The invariant holds after the first range. -/
theorem inv₁ : (after₁ is).Inv :=
  System.Inv.init.attempt attempts₁ fun _ hheld => absurd hheld (Finset.notMem_empty _)

/-- The invariant holds after the second range was taken. -/
theorem inv₂ : (after₂ is i).Inv := (inv₁ is).attempt (attempts₂ is) trivial

variable {is}

/-- The first range is stored of the day. -/
theorem storedLogs₁ (his : is ≠ []) : (after₁ is).store.storedLogs today = [[logOf is]] := by
  classical
  have hstores : (System.init : System ℚ).store.Stores ((System.init : System ℚ).token 1 (batchID 1))
      (countedDays [logOf is]) today := by
    rw [countedDays_logOf his]
    exact System.Inv.init.stores_of_fresh attempts₁ (Bool.eq_false_iff.1 again_init) (Finset.mem_singleton_self 0)
  have hstored := System.Stored.answered (System.init : System ℚ) 1 (batchID 1) [logOf is]
  rw [after₁, System.attempt, System.move_store, System.record_store, hstored.storedLogs_eq, Store.storedLogs_take,
    if_pos hstores]
  rfl

/-- Both ranges are stored of the day. -/
theorem storedLogs₂ (his : is ≠ []) : (after₂ is i).store.storedLogs today = [[logOf is], [logOf [i]]] := by
  classical
  have hstores : (after₁ is).store.Stores ((after₁ is).token 1 (batchID 2)) {0} today :=
    (inv₁ is).stores_of_fresh (attempts₂ is) (fresh₁ is) (Finset.mem_singleton_self 0)
  rw [store₂, Store.storedLogs_take, if_pos hstores, storedLogs₁ his]
  rfl

/-- What is merged of the first range: a count of one for each of its keys. -/
theorem merged_first (hlength : is.length < keyCountsKept) (k : ℕ) :
    (foldedCounts [[logOf is]] 0).count (keyOf k) = (if k ∈ is then 1 else 0) ∧
      (foldedCounts [[logOf is]] 0).keys.card ≤ is.length := by
  have hcard := card_byDay_logOf_le is
  have hempty : (Counts.empty : Counts TypedKey).keys.card < keyCountsKept := by decide
  have hfits := (Finset.card_union_le (Counts.empty : Counts TypedKey).keys (byDay [logOf is] 0).keys).trans
    (Nat.add_le_add_left hcard _)
  rw [show (Counts.empty : Counts TypedKey).keys.card = 0 from rfl, Nat.zero_add] at hfits
  constructor
  · change (mergeKeyCounts .empty (byDay [logOf is] 0) keyCountsKept).counts.count (keyOf k) = _
    rw [count_mergeKeyCounts_of_room hempty (hfits.trans hlength.le), count_byDay_logOf]
    exact zero_add _
  · exact (card_keys_mergeKeyCounts_le _ _ _).trans ((Nat.zero_add _).trans_le hcard)

/-- One more key fits. -/
theorem merged_next (hlength : is.length < keyCountsKept) (k : ℕ) :
    (mergeKeyCounts (foldedCounts [[logOf is]] 0) (byDay [logOf [i]] 0) keyCountsKept).counts.count (keyOf k) =
      (foldedCounts [[logOf is]] 0).count (keyOf k) + if k = i then 1 else 0 := by
  obtain ⟨-, hcard⟩ := merged_first hlength k
  have hfits := (Finset.card_union_le (foldedCounts [[logOf is]] 0).keys (byDay [logOf [i]] 0).keys).trans
    (Nat.add_le_add hcard (card_byDay_logOf_le [i]))
  rw [count_mergeKeyCounts_of_room (hcard.trans_lt hlength) (hfits.trans hlength), count_byDay_logOf,
    if_congr List.mem_singleton rfl rfl]

/-- The table has the first range's keys and the second's. -/
theorem sums₂ (his : is ≠ []) (hlength : is.length < keyCountsKept) (k : ℕ) :
    sumOf (after₂ is i).store.rows today (keyOf k) = (if k ∈ is then 1 else 0) + if k = i then 1 else 0 := by
  rw [(inv₂ is i).sums, Store.folded, storedLogs₂ i his, ← (merged_first hlength k).1]
  exact merged_next i hlength k

/-- The counts in memory are still the first range's. -/
theorem dayCounts₃ (his : is ≠ []) : (after₃ is i).store.dayCounts today = foldedCounts [[logOf is]] 0 := by
  obtain ⟨hheld, hcounts⟩ := @Store.held_today .empty ((System.init : System ℚ).token 1 (batchID 1)) is his rfl
  rw [← store₁] at hheld hcounts
  have hheld' : today ∈ (after₃ is i).store.held := by
    rw [store₃, store₂]
    exact hheld
  rw [Store.dayCounts, if_pos hheld', store₃, store₂]
  change (after₁ is).store.counts today = _
  rw [hcounts]
  rfl

/-- The third range is one that the table stores. -/
theorem stores₃ : (after₃ is i).store.Stores ((after₃ is i).token 1 (batchID 3)) {0} today := by
  refine ⟨rfl, Store.mem_newDays.2 ⟨Finset.mem_singleton_self 0, ?_⟩⟩
  rw [store₃, store₂]
  rintro t ht ⟨htoken, -⟩
  have hupTo : t.token.upTo = batchID 1 ∨ t.token.upTo = batchID 2 := by
    rcases Store.mem_taken_take.1 ht with ht | ⟨_, -, rfl⟩
    · rw [store₁, Store.taken_insertKeyCounts] at ht
      rcases Store.mem_taken_take.1 ht with ht | ⟨_, -, rfl⟩
      · exact absurd ht List.not_mem_nil
      · exact .inl rfl
    · exact .inr rfl
  have hthird : t.token.upTo = batchID 3 := by
    rw [htoken]
    rfl
  rw [hthird] at hupTo
  rcases hupTo with h | h <;> exact absurd (congrArg UUID.value h) (by decide)

/-- The table then has the third range's key on top of the second's. -/
theorem sums₄ (his : is ≠ []) (hlength : is.length < keyCountsKept) (k : ℕ) :
    sumOf (after₄ is i j).store.rows today (keyOf k) =
      (if k ∈ is then 1 else 0) + (if k = i then 1 else 0) + if k = j then 1 else 0 := by
  classical
  rw [after₄, System.attempt, System.move_store, System.record_store, System.insert, System.setStore_store,
    Store.rows_insertKeyCounts, countedDays_logOf (List.cons_ne_nil j []), Store.sumOf_take, if_pos (stores₃ i),
    Store.merge, dayCounts₃ i his, store₃, sums₂ i his hlength]
  change _ + ((mergeKeyCounts _ (byDay [logOf [j]] 0) keyCountsKept).counts.count (keyOf k) - _) = _
  rw [merged_next j hlength, add_sub_cancel_left]

end Ranges

/-- With 1001 keys the table keeps more than the cap. -/
theorem after₄_not_keepsTopKeys : ¬(after₄ (List.range 999) 999 1000).store.KeepsTopKeys today := by
  intro h
  have hne : List.range 999 ≠ [] := by
    rw [Ne, List.range_eq_nil]
    decide
  have hsubset : (Finset.range 1001).image keyOf ⊆
      (tableCounts (after₄ (List.range 999) 999 1000).store.rows today).keys := by
    intro key hkey
    obtain ⟨k, hk, rfl⟩ := Finset.mem_image.1 hkey
    rw [mem_tableCounts, sums₄ 999 1000 hne (by rw [List.length_range]; decide), if_congr List.mem_range rfl rfl]
    have hlt := Finset.mem_range.1 hk
    split_ifs <;> omega
  have hcard := Finset.card_le_card hsubset
  rw [Finset.card_image_of_injective _ keyOf_injective, Finset.card_range] at hcard
  exact absurd (hcard.trans h.card) (by decide)

/-- After the range that went unanswered the next attempt is one made again. -/
theorem again₂ (is : List ℕ) (i : ℕ) : (after₂ is i).again 1 = true := by
  rw [System.again, after₂, System.attempt, System.record_cursor, System.record_recorded]
  change decide ((after₁ is).cursor 1 < batchID 2) = true
  rw [cursor₁]
  decide

/-- What is made again is the second range. -/
theorem recorded₂ (is : List ℕ) (i : ℕ) : batchID 2 = (after₂ is i).recorded 1 := (System.record_recorded _ _ _).symm

/-- After the empty range the next attempt is not one made again. -/
theorem fresh₃ (is : List ℕ) (i : ℕ) : ¬(after₃ is i).again 1 := by
  rw [System.again, cursor₃, recorded₃]
  decide

/-- The first range is a step of the code. -/
theorem step₁ (is : List ℕ) :
    (System.init : System ℚ).step (.attempt 1 (batchID 1) [logOf is] .done) = some (after₁ is) :=
  System.step_fresh (Bool.eq_false_iff.1 again_init) (by decide)

/-- The second range, taken and not answered, is a step of the code. -/
theorem step₂ (is : List ℕ) (i : ℕ) :
    (after₁ is).step (.attempt 1 (batchID 2) [logOf [i]] (.unanswered {0})) = some (after₂ is i) :=
  System.step_fresh (fresh₁ is) (attempts₂ is).lt

/-- A range taken without an answer, and then again with its Log. -/
theorem reaches_retried : Reaches System.step System.countsDaysBehind (System.init : System ℚ)
    ((after₂ [0] 1).attempt 1 (batchID 2) [logOf [1]] .done) := by
  have hfirst : Reaches System.step System.countsDaysBehind (System.init : System ℚ) (after₁ [0]) :=
    Relation.ReflTransGen.refl.tail
      ⟨.attempt 1 (batchID 1) [logOf [0]] .done, fun _ hheld => absurd hheld (Finset.notMem_empty _), step₁ [0]⟩
  have hsecond : Reaches System.step System.countsDaysBehind (System.init : System ℚ) (after₂ [0] 1) :=
    hfirst.tail ⟨.attempt 1 (batchID 2) [logOf [1]] (.unanswered {0}), trivial, step₂ [0] 1⟩
  refine hsecond.tail
    ⟨.attempt 1 (batchID 2) [logOf [1]] .done, fun day hheld _ => ?_, System.step_again (again₂ [0] 1) (recorded₂ [0] 1)⟩
  rw [store₂] at hheld
  change _ ∈ (after₁ [0]).store.held at hheld
  rw [store₁] at hheld
  rcases Store.held_insertKeyCounts hheld with ⟨hnone, -, -⟩ | ⟨-, -, hday, -⟩
  · exact absurd hnone (Finset.notMem_empty _)
  · rw [countedDays_logOf (List.cons_ne_nil _ _)] at hday ⊢
    exact hday

end Runs

/-- In every run in which no attempt takes a cursor past a range without the days whose counts in memory
are behind, each day's key counts are those of its stored ranges merged in order: a sound top-K. -/
theorem keyCounts_keepTopKeys {s : System D} (hrun : Reaches System.step System.countsDaysBehind .init s)
    (projectDay : ProjectDay) : s.store.KeepsTopKeys projectDay := by
  have hinv : s.Inv := hrun.invariant .init fun s a t h hbehind hstep => h.step hbehind hstep
  exact Store.keepsTopKeys_of_folded (hinv.tableCounts_eq projectDay)


/-- The second range made again with its Log keeps the top keys. -/
theorem keyCounts_keepTopKeys_retried :
    ((after₂ [0] 1).attempt 1 (batchID 2) [logOf [1]] .done).store.KeepsTopKeys today :=
  keyCounts_keepTopKeys reaches_retried today

/-- A retry without the day leaves its counts in memory behind, and past the cap the table keeps more keys
than the cap. -/
theorem not_forall_keepTopKeys : ¬∀ s : System ℚ, Reaches System.step (fun _ _ => True) .init s →
    ∀ projectDay, s.store.KeepsTopKeys projectDay := by
  intro h
  refine after₄_not_keepsTopKeys (h _ ?_ today)
  have hthird : Reaches System.step (fun _ _ => True) (System.init : System ℚ) (after₃ (List.range 999) 999) :=
    ((Relation.ReflTransGen.refl.tail ⟨_, trivial, step₁ _⟩).tail ⟨_, trivial, step₂ _ 999⟩).tail
      ⟨_, trivial, System.step_again (again₂ _ 999) (recorded₂ _ 999)⟩
  refine hthird.tail ⟨_, trivial, System.step_fresh (fresh₃ _ 999) ?_⟩
  rw [cursor₃]
  decide

end SolidTrace.KeyCounts
