import Mathlib.Data.List.Nodup
import SolidTrace.LogProcessing.StoreLogs

/-!
# Storing the Logs of a range apart

Log batches that fail on their content together are stored without the Logs that fail on their own.
`storeApart` finds these by trying the Logs in halves, which stores nothing, and skips them. What
fails on its content is a test of the Logs tried; a try may also end with an error of the store or
find the worker stopped, as a script of what each try meets says.
-/

namespace SolidTrace.LogProcessing

open Storage

variable {L I S : Type*}

section Model

/-- How often Logs that fail on their content are retried before they are tried apart. -/
def contentRetries : ℕ := 3

/-- One insert of a Project's Log batches. -/
structure LogInsert (L S : Type*) where
  after : UUID
  upTo : UUID
  batches : List (Batch L)
  again : Bool
  dropped : List (S × ℕ)

def LogInsert.token (insert : LogInsert L S) (project : ProjectID) : Token :=
  ⟨project, insert.after, insert.upTo⟩

/-- A Log with the id of its Log batch. -/
structure BatchedLog (L : Type*) where
  batch : UUID
  log : L
deriving DecidableEq

/-- Why Logs could not be stored: for what they hold, for the store, or as the worker is stopping. -/
inductive Failure where
  | content
  | store
  | stopped
deriving DecidableEq, Repr

/-- What a call meets besides the Logs it is given: whether Stop was called before it, whether the
store fails it, and whether ClickHouse then answers a ping. -/
structure Meets where
  stopped : Bool
  storeFails : Bool
  answers : Bool
deriving DecidableEq, Repr

/-- A failure of what was stored is one of content if ClickHouse still answers. -/
def classify (meets : Meets) (rejected : Bool) : Option Failure :=
  if meets.storeFails then some .store
  else if rejected then if meets.answers then some .content else some .store
  else none

/-- The Logs of batches, as an insert appends them. -/
def batchedLogs (batches : List (Batch L)) : List (BatchedLog L) :=
  batches.flatMap fun batch => batch.items.map (⟨batch.id, ·⟩)

/-- Add a Log to its batch, if that is the last one, or to a new one. -/
def addToBatches (batches : List (Batch L)) (l : BatchedLog L) : List (Batch L) :=
  match batches.getLast? with
  | some last =>
    if last.id = l.batch then batches.dropLast ++ [⟨last.id, last.items ++ [l.log]⟩]
    else batches ++ [⟨l.batch, [l.log]⟩]
  | none => [⟨l.batch, [l.log]⟩]

/-- Group Logs back into their Log batches, in order. -/
def batchesOf (logs : List (BatchedLog L)) : List (Batch L) := logs.foldl addToBatches []

variable (fails : List (BatchedLog L) → Bool)

/-- `TryLogBatches`, classified. -/
def tryLogBatches (meets : Meets) (batches : List (Batch L)) : Option Failure :=
  classify meets (fails (batchedLogs batches))

/-- The Logs that fail on their own, by tries from the one so numbered, and the number of the next. -/
def rejectedLogs (script : ℕ → Meets) (logs : List (BatchedLog L)) (n : ℕ) :
    Except Failure (List (BatchedLog L)) × ℕ :=
  if logs = [] then (.ok [], n)
  else if (script n).stopped then (.error .stopped, n)
  else
    match tryLogBatches fails (script n) (batchesOf logs) with
    | none => (.ok [], n + 1)
    | some .content =>
      if hone : logs.length ≤ 1 then (.ok logs, n + 1)
      else
        let half := logs.length / 2
        match rejectedLogs script (logs.take half) (n + 1) with
        | (.error e, n) => (.error e, n)
        | (.ok first, n) =>
          match rejectedLogs script (logs.drop half) n with
          | (.error e, n) => (.error e, n)
          | (.ok second, n) => (.ok (first ++ second), n)
    | some e => (.error e, n + 1)
termination_by logs.length
decreasing_by
  · rw [List.length_take]
    omega
  · rw [List.length_drop]
    omega

variable [DecidableEq I] (idOf : L → I)

/-- An insert without some Logs. The batches they leave empty stay. -/
def LogInsert.without (insert : LogInsert L S) (rejected : List (BatchedLog L)) : LogInsert L S :=
  { insert with
    batches := insert.batches.map fun batch =>
      ⟨batch.id, batch.items.filter fun log => idOf log ∉ rejected.map (idOf ∘ BatchedLog.log)⟩ }

/-- Store an insert without the Logs that fail on their own: what was inserted and what was skipped. -/
def storeApart (script : ℕ → Meets) (insert : LogInsert L S) (n : ℕ) :
    Except Failure (LogInsert L S × List (BatchedLog L)) :=
  match rejectedLogs fails script (batchedLogs insert.batches) n with
  | (.error e, _) => .error e
  | (.ok rejected, n) =>
    let kept := insert.without idOf rejected
    match classify (script n) (fails (batchedLogs kept.batches)) with
    | some e => .error e
    | none => .ok (kept, rejected)

/-- A Project's Processing cursor, the inserts that ClickHouse said it has, and the Logs skipped. -/
structure Progress (L S : Type*) where
  cursor : UUID
  inserts : List (LogInsert L S)
  skipped : List (BatchedLog L)

/-- What `storeLogs` does with a range that its Project's Log transform returned, when the range has
failed on its content so many times. `moves` is whether the cursor can be moved. -/
def storeLogs (script : ℕ → Meets) (failures : ℕ) (moves : Bool) (p : Progress L S)
    (insert : LogInsert L S) : Except Failure Unit × Progress L S :=
  let result : Except Failure (LogInsert L S × List (BatchedLog L)) :=
    match classify (script 0) (fails (batchedLogs insert.batches)) with
    | none => .ok (insert, [])
    | some .content =>
      if contentRetries ≤ failures then storeApart fails idOf script insert 1 else .error .content
    | some e => .error e
  match result with
  | .error e => (.error e, p)
  | .ok (inserted, skipped) =>
    let stored : Progress L S := ⟨p.cursor, p.inserts ++ [inserted], p.skipped ++ skipped⟩
    if moves then (.ok (), { stored with cursor := insert.upTo }) else (.error .store, stored)

end Model

section Batches

/-- A Log more is added to the last batch, or to a new one. -/
theorem batchedLogs_addToBatches (batches : List (Batch L)) (l : BatchedLog L) :
    batchedLogs (addToBatches batches l) = batchedLogs batches ++ [l] := by
  unfold addToBatches
  rcases List.eq_nil_or_concat' batches with rfl | ⟨before, last, rfl⟩
  · rfl
  · rw [List.getLast?_concat, List.dropLast_concat]
    simp only
    split
    next hid =>
      obtain ⟨batch, log⟩ := l
      obtain rfl : last.id = batch := hid
      simp [batchedLogs]
    · simp [batchedLogs]

/-- Grouping Logs into batches keeps them, in their order. -/
@[simp] theorem batchedLogs_batchesOf (logs : List (BatchedLog L)) : batchedLogs (batchesOf logs) = logs := by
  have hfold : ∀ batches, batchedLogs (logs.foldl addToBatches batches) = batchedLogs batches ++ logs := by
    induction logs with
    | nil => simp
    | cons l logs ih =>
      intro batches
      rw [List.foldl_cons, ih, batchedLogs_addToBatches, List.append_assoc, List.singleton_append]
  exact hfold []

end Batches

section Search

variable {fails : List (BatchedLog L) → Bool} {script : ℕ → Meets}

/-- A set of Logs fails whenever it holds a Log that fails alone. -/
def FailsWithin (fails : List (BatchedLog L) → Bool) : Prop :=
  ∀ logs, ∀ l ∈ logs, fails [l] = true → fails logs = true

/-- A set of Logs fails only if some Log in it fails alone. -/
def FailsOnlyWithin (fails : List (BatchedLog L) → Bool) : Prop :=
  ∀ logs, fails logs = true → ∃ l ∈ logs, fails [l] = true

/-- What is stored was not rejected. -/
theorem classify_eq_none {meets : Meets} {rejected : Bool} (h : classify meets rejected = none) :
    rejected = false := by
  unfold classify at h
  split at h
  · cases h
  · cases rejected with
    | false => rfl
    | true => cases hanswers : meets.answers <;> simp [hanswers] at h

/-- What fails by its content was rejected. -/
theorem classify_eq_content {meets : Meets} {rejected : Bool}
    (h : classify meets rejected = some .content) : rejected = true := by
  unfold classify at h
  split at h
  · cases h
  · cases rejected with
    | false => cases h
    | true => rfl

/-- How a search ends without an error: no Logs, a try that passes, one Log that fails, or a search of
each half. -/
theorem rejectedLogs_cases {logs rejected : List (BatchedLog L)} {n n' : ℕ}
    (h : rejectedLogs fails script logs n = (.ok rejected, n')) :
    logs = [] ∧ rejected = [] ∨
    fails logs = false ∧ rejected = [] ∨
    fails logs = true ∧ (∃ l, logs = [l]) ∧ rejected = logs ∨
    2 ≤ logs.length ∧ ∃ first n₁ second,
      rejectedLogs fails script (logs.take (logs.length / 2)) (n + 1) = (.ok first, n₁) ∧
      rejectedLogs fails script (logs.drop (logs.length / 2)) n₁ = (.ok second, n') ∧
      rejected = first ++ second := by
  rw [rejectedLogs] at h
  split at h
  next hnil =>
    cases h
    exact .inl ⟨hnil, rfl⟩
  next hne =>
    split at h
    · cases h
    · split at h
      next hpass =>
        cases h
        rw [tryLogBatches, batchedLogs_batchesOf] at hpass
        exact .inr (.inl ⟨classify_eq_none hpass, rfl⟩)
      next hcontent =>
        rw [tryLogBatches, batchedLogs_batchesOf] at hcontent
        split at h
        next hone =>
          cases h
          exact .inr (.inr (.inl ⟨classify_eq_content hcontent,
            List.length_eq_one_iff.1 (le_antisymm hone (List.length_pos_iff.2 hne)), rfl⟩))
        next hmany =>
          simp only at h
          split at h
          · cases h
          next first n₁ hfirst =>
            split at h
            · cases h
            next second n₂ hsecond =>
              cases h
              exact .inr (.inr (.inr ⟨by omega, first, n₁, second, hfirst, hsecond, rfl⟩))
      · cases h

/-- A search that ends finds Logs that fail alone, and all of them if these fail any set they are in. -/
theorem rejectedLogs_found (logs : List (BatchedLog L)) {rejected : List (BatchedLog L)} {n n' : ℕ}
    (h : rejectedLogs fails script logs n = (.ok rejected, n')) :
    rejected.Sublist (logs.filter fun l => fails [l]) ∧
      (FailsWithin fails → rejected = logs.filter fun l => fails [l]) := by
  induction hlength : logs.length using Nat.strong_induction_on generalizing logs rejected n n' with
  | _ k ih =>
    rcases rejectedLogs_cases h with ⟨rfl, rfl⟩ | ⟨hpass, rfl⟩ | ⟨hfails, ⟨l, rfl⟩, rfl⟩ |
      ⟨hmany, first, n₁, second, hfirst, hsecond, rfl⟩
    · exact ⟨List.nil_sublist _, fun _ => rfl⟩
    · refine ⟨List.nil_sublist _, fun hwithin => (List.filter_eq_nil_iff.2 fun l hl hfails => ?_).symm⟩
      rw [hwithin logs l hl hfails] at hpass
      cases hpass
    · simp [hfails]
    · have htake : (logs.take (logs.length / 2)).length < k := by
        rw [List.length_take]
        omega
      have hdrop : (logs.drop (logs.length / 2)).length < k := by
        rw [List.length_drop]
        omega
      obtain ⟨hsub₁, hall₁⟩ := ih _ htake _ hfirst rfl
      obtain ⟨hsub₂, hall₂⟩ := ih _ hdrop _ hsecond rfl
      rw [← List.take_append_drop (logs.length / 2) logs, List.filter_append]
      refine ⟨hsub₁.append hsub₂, fun hwithin => ?_⟩
      rw [← hall₁ hwithin, ← hall₂ hwithin]

/-- A search that no store error and no Stop ends finds something or nothing. -/
theorem rejectedLogs_ok (logs : List (BatchedLog L)) (n : ℕ)
    (hscript : ∀ m, script m = ⟨false, false, true⟩) :
    ∃ rejected n', rejectedLogs fails script logs n = (.ok rejected, n') := by
  induction hlength : logs.length using Nat.strong_induction_on generalizing logs n with
  | _ k ih =>
    rw [rejectedLogs]
    split
    · exact ⟨_, _, rfl⟩
    · rw [hscript n, if_neg Bool.false_ne_true, tryLogBatches, batchedLogs_batchesOf]
      cases fails logs with
      | false => exact ⟨_, _, rfl⟩
      | true =>
        simp only [classify, Bool.false_eq_true, if_false, if_true]
        split
        · exact ⟨_, _, rfl⟩
        · obtain ⟨first, n₁, hfirst⟩ := ih (logs.take (logs.length / 2)).length
            (by rw [List.length_take]; omega) _ (n + 1) rfl
          obtain ⟨second, n₂, hsecond⟩ := ih (logs.drop (logs.length / 2)).length
            (by rw [List.length_drop]; omega) _ n₁ rfl
          rw [hfirst]
          simp only
          rw [hsecond]
          exact ⟨_, _, rfl⟩

end Search

section Apart

variable {fails : List (BatchedLog L) → Bool} {script : ℕ → Meets} [DecidableEq I] {idOf : L → I}
  {insert : LogInsert L S}

/-- An insert without the Logs that fail alone, each other Log in its batch. -/
def LogInsert.passing (fails : List (BatchedLog L) → Bool) (insert : LogInsert L S) : LogInsert L S :=
  { insert with
    batches := insert.batches.map fun batch =>
      ⟨batch.id, batch.items.filter fun log => !fails [⟨batch.id, log⟩]⟩ }

/-- A Log of some batches is one of a batch's. -/
theorem mem_batchedLogs {batches : List (Batch L)} {l : BatchedLog L} :
    l ∈ batchedLogs batches ↔ ∃ batch ∈ batches, batch.id = l.batch ∧ l.log ∈ batch.items := by
  rw [batchedLogs, List.mem_flatMap]
  refine exists_congr fun batch => and_congr_right fun _ => ?_
  obtain ⟨id, log⟩ := l
  simp only [List.mem_map, BatchedLog.mk.injEq]
  constructor
  · rintro ⟨log', hlog, hid, rfl⟩
    exact ⟨hid, hlog⟩
  · rintro ⟨hid, hlog⟩
    exact ⟨log, hlog, hid, rfl⟩

/-- Distinct Logs are left out by their ids. -/
theorem without_eq_passing (hids : ((batchedLogs insert.batches).map (idOf ∘ BatchedLog.log)).Nodup) :
    insert.without idOf ((batchedLogs insert.batches).filter fun l => fails [l]) = insert.passing fails := by
  unfold LogInsert.without LogInsert.passing
  congr 1
  refine List.map_congr_left fun batch hbatch => ?_
  congr 1
  refine List.filter_congr fun log hlog => ?_
  have hmem : (⟨batch.id, log⟩ : BatchedLog L) ∈ batchedLogs insert.batches :=
    mem_batchedLogs.2 ⟨batch, hbatch, rfl, hlog⟩
  have hrejected : idOf log ∈ ((batchedLogs insert.batches).filter fun l => fails [l]).map
      (idOf ∘ BatchedLog.log) ↔ fails [⟨batch.id, log⟩] = true := by
    rw [List.mem_map]
    constructor
    · rintro ⟨r, hr, hid⟩
      obtain ⟨hr, hfails⟩ := List.mem_filter.1 hr
      rwa [← List.inj_on_of_nodup_map hids hr hmem hid]
    · intro hfails
      exact ⟨_, List.mem_filter.2 ⟨hmem, hfails⟩, rfl⟩
  rw [decide_not, Bool.not_inj_iff]
  exact Bool.eq_iff_iff.2 (decide_eq_true_iff.trans hrejected)

/-- What passes is in the order it came in. -/
theorem batchedLogs_passing : batchedLogs (insert.passing fails).batches =
    (batchedLogs insert.batches).filter fun l => !fails [l] := by
  unfold LogInsert.passing batchedLogs
  simp only [List.flatMap_map, List.filter_flatMap, List.filter_map, Function.comp_def]

/-- What storing apart inserts and skips, when it does. -/
theorem storeApart_eq_ok (hwithin : FailsWithin fails)
    (hids : ((batchedLogs insert.batches).map (idOf ∘ BatchedLog.log)).Nodup) {n : ℕ}
    {kept : LogInsert L S} {skipped : List (BatchedLog L)}
    (h : storeApart fails idOf script insert n = .ok (kept, skipped)) :
    kept = insert.passing fails ∧ skipped = (batchedLogs insert.batches).filter fun l => fails [l] := by
  unfold storeApart at h
  split at h
  · cases h
  next rejected n' hsearch =>
    have hrejected := (rejectedLogs_found _ hsearch).2 hwithin
    simp only at h
    split at h
    · cases h
    · cases h
      exact ⟨by rw [hrejected, without_eq_passing hids], hrejected⟩

/-- A search that ends is followed by an insert that fails only for the store, when a set of Logs fails
only for those in it that fail alone. -/
theorem storeApart_of_search (hwithin : FailsWithin fails) (honly : FailsOnlyWithin fails)
    (hids : ((batchedLogs insert.batches).map (idOf ∘ BatchedLog.log)).Nodup) {n n' : ℕ}
    {rejected : List (BatchedLog L)}
    (hsearch : rejectedLogs fails script (batchedLogs insert.batches) n = (.ok rejected, n'))
    (hstore : (script n').storeFails = false) :
    storeApart fails idOf script insert n =
      .ok (insert.passing fails, (batchedLogs insert.batches).filter fun l => fails [l]) := by
  have hrejected := (rejectedLogs_found _ hsearch).2 hwithin
  have hpass : fails (batchedLogs (insert.passing fails).batches) = false := by
    rw [Bool.eq_false_iff]
    intro hfails
    obtain ⟨l, hl, halone⟩ := honly _ hfails
    rw [batchedLogs_passing, List.mem_filter, halone] at hl
    cases hl.2
  unfold storeApart
  rw [hsearch, hrejected]
  simp only [without_eq_passing hids, hpass, classify, hstore, Bool.false_eq_true, if_false]

/-- Storing Logs that fail on their content apart: a search that ends finds just the Logs that fail
alone; what is then inserted is the others, each in its batch, under the same token; and a search or an
insert that fails moves no cursor and skips nothing. -/
theorem storeApart_isolates (hwithin : FailsWithin fails)
    (hids : ((batchedLogs insert.batches).map (idOf ∘ BatchedLog.log)).Nodup) (project : ProjectID) (n : ℕ) :
    (∀ rejected n', rejectedLogs fails script (batchedLogs insert.batches) n = (.ok rejected, n') →
      rejected = (batchedLogs insert.batches).filter (fun l => fails [l]) ∧
        (FailsOnlyWithin fails → (script n').storeFails = false →
          storeApart fails idOf script insert n = .ok (insert.passing fails, rejected))) ∧
    (∀ kept skipped, storeApart fails idOf script insert n = .ok (kept, skipped) →
      skipped = (batchedLogs insert.batches).filter (fun l => fails [l]) ∧
        kept = insert.passing fails ∧ kept.token project = insert.token project) ∧
    (∀ e n', rejectedLogs fails script (batchedLogs insert.batches) n = (.error e, n') →
      storeApart fails idOf script insert n = .error e) ∧
    ∀ p failures moves,
      (∀ e, classify (script 0) (fails (batchedLogs insert.batches)) = some .content →
        contentRetries ≤ failures → storeApart fails idOf script insert 1 = .error e →
          storeLogs fails idOf script failures moves p insert = (.error e, p)) ∧
      ∀ p', storeLogs fails idOf script failures moves p insert = (.ok (), p') →
        p' = ⟨insert.upTo, p.inserts ++ [insert], p.skipped⟩ ∨
          p' = ⟨insert.upTo, p.inserts ++ [insert.passing fails],
            p.skipped ++ (batchedLogs insert.batches).filter fun l => fails [l]⟩ := by
  refine ⟨fun rejected n' hsearch => ?_, fun kept skipped h => ?_, fun e n' hsearch => ?_,
    fun p failures moves => ⟨fun e hcontent hfailures hapart => ?_, fun p' h => ?_⟩⟩
  · have hrejected := (rejectedLogs_found _ hsearch).2 hwithin
    refine ⟨hrejected, fun honly hstore => ?_⟩
    rw [storeApart_of_search hwithin honly hids hsearch hstore, hrejected]
  · obtain ⟨hkept, hskipped⟩ := storeApart_eq_ok hwithin hids h
    exact ⟨hskipped, hkept, by rw [hkept]; rfl⟩
  · unfold storeApart
    rw [hsearch]
  · unfold storeLogs
    rw [hcontent]
    simp only [if_pos hfailures, hapart]
  · unfold storeLogs at h
    simp only at h
    split at h
    · cases h
    next inserted skipped hstored =>
      have hp' : p' = ⟨insert.upTo, p.inserts ++ [inserted], p.skipped ++ skipped⟩ := by
        cases moves <;> cases h
        rfl
      rw [hp']
      split at hstored
      · cases hstored
        exact .inl (by rw [List.append_nil])
      · split at hstored
        · obtain ⟨hkept, hskipped⟩ := storeApart_eq_ok hwithin hids hstored
          exact .inr (by rw [hkept, hskipped])
        · cases hstored
      · cases hstored

/-- Two batches whose Logs are numbers, of which those from 7 on fail. -/
private def sevenFails : LogInsert ℕ Unit :=
  ⟨UUID.Nil, UUID.Nil, [⟨UUID.Nil, [1, 7]⟩, ⟨UUID.Nil, [9]⟩], true, []⟩

private def fromSeven (logs : List (BatchedLog ℕ)) : Bool := logs.any (7 ≤ ·.log)

/-- A Log that fails is set apart from the others of its insert. -/
theorem storeApart_isolates_sevenFails :
    storeApart fromSeven id (fun _ => ⟨false, false, true⟩) sevenFails 1 =
      .ok ({ sevenFails with batches := [⟨UUID.Nil, [1]⟩, ⟨UUID.Nil, []⟩] },
        [⟨UUID.Nil, 7⟩, ⟨UUID.Nil, 9⟩]) := by
  have hwithin : FailsWithin fromSeven := by
    intro logs l hl hfails
    simp only [fromSeven, List.any_cons, List.any_nil, Bool.or_false] at hfails
    exact List.any_eq_true.2 ⟨l, hl, hfails⟩
  have honly : FailsOnlyWithin fromSeven := by
    intro logs hfails
    obtain ⟨l, hl, hfails⟩ := List.any_eq_true.1 hfails
    exact ⟨l, hl, by simpa [fromSeven] using hfails⟩
  obtain ⟨rejected, n', hsearch⟩ := @rejectedLogs_ok ℕ fromSeven (fun _ => ⟨false, false, true⟩)
    (batchedLogs sevenFails.batches) 1 fun _ => rfl
  obtain ⟨hrejected, hstored⟩ := (@storeApart_isolates ℕ ℕ Unit fromSeven (fun _ => ⟨false, false, true⟩) _ id
    sevenFails hwithin (by decide) 0 1).1 rejected n' hsearch
  rw [hstored honly rfl, hrejected]
  rfl

end Apart

end SolidTrace.LogProcessing
