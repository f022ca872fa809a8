import Mathlib.Data.List.Dedup
import Mathlib.Data.List.Pairwise
import SolidTrace.Lib.Weave
import SolidTrace.LogTables.BinCache

/-!
# A table scan put together from bins

What a scan of a table made bin by bin computes: the bins of its range, the spans its query runs
over, the bins it keeps, and the table it returns. The table is that of one query over the whole
range as long as the bins it took from the cache hold the rows of their own Logs.
-/

namespace SolidTrace.LogTables

open Storage (ProjectID)
open Weave (Sorted under weave)

/-- Queries whose tables are made bin by bin, and what ClickHouse answers them. `rows` is the answer
for some Logs, before its limit. -/
structure BinnedQueries (Q Rest : Type*) where
  fromTime : Q → ℤ
  toTime : Q → ℤ
  size : Q → ℤ
  key : Q → String
  rows : Q → List (Log Rest) → List Row
  size_pos : ∀ q, 0 < size q
  /-- A row's first column is the bin of some Log. -/
  row_bin : ∀ q logs, ∀ row ∈ rows q logs, ∃ log ∈ logs,
    rowBin row = some (binStart log.time (size q))
  /-- Rows are sorted by bin first. -/
  rows_sorted : ∀ q logs, Sorted mustRowBin (rows q logs)
  /-- A row comes from its bin's Logs alone. -/
  rows_under : ∀ q logs start, under mustRowBin (rows q logs) start =
    rows q (logs.filter fun log => binStart log.time (size q) = start)
  /-- Queries of the same key and size give a bin that lies in both their ranges the same rows. -/
  rows_whole : ∀ q q' start logs, key q = key q' → size q = size q' →
    fromTime q ≤ start → start + size q ≤ toTime q →
    fromTime q' ≤ start → start + size q ≤ toTime q' →
    (∀ log ∈ logs, binStart log.time (size q) = start) → rows q logs = rows q' logs

/-- A table scan with bins. The table stops at `limit` rows, where its query stops too. -/
structure TableScan (Q : Type*) where
  project : ProjectID
  query : Q
  limit : ℕ
  now : ℤ
  limit_pos : 0 < limit

/-- One bin of a scan's range that may come from the cache. -/
structure TimeBin where
  start : ℤ
  stop : ℤ
  key : BinKey
  rows : List Row
  hit : Bool

/-- The most bins a run takes from the cache or adds to it. -/
def maxCachedBins : ℤ := 20000

def firstStorableTime : ℤ := 0

/-- 2149-06-01. -/
def endOfStorableTime : ℤ := 5661792000000000

/-- The first bin that starts in a range. -/
def firstBin (fromTime size : ℤ) : ℤ :=
  let first := binStart fromTime size
  if first < fromTime then first + size else first

/-- Whether a bin's last hour had ended at a time. -/
def ended (now stop : ℤ) : Bool := truncateHour (stop - 1) + hour ≤ now

/-- What the cache lacks, from `start` on: the spans between the bins it had. -/
def uncachedSpans (toTime : ℤ) : ℤ → List TimeBin → List (ℤ × ℤ)
  | start, [] => if start < toTime then [(start, toTime)] else []
  | start, bin :: bins =>
    if !bin.hit then uncachedSpans toTime start bins
    else (if start < bin.start then [(start, bin.start)] else []) ++
      uncachedSpans toTime bin.stop bins

/-- Whether a bin has all its rows: when the query stopped at its limit, only if it comes before
the last row's. -/
def complete (limit : ℕ) (rows : List Row) (start : ℤ) : Bool :=
  match rows.getLast? with
  | some last => if limit ≤ rows.length then start < mustRowBin last else true
  | none => true

/-- The bins a scan keeps, with their rows. -/
def keptBins (limit : ℕ) (rows : List Row) (bins : List TimeBin) : List (BinKey × List Row) :=
  (bins.filter fun bin => !bin.hit && complete limit rows bin.start).map fun bin =>
    (bin.key, rows.filter fun row => mustRowBin row = bin.start)

/-- The rows in order of their bins: the cached bins' between the query's. -/
def mergeRows (rows : List Row) : List TimeBin → List Row
  | [] => rows
  | bin :: bins =>
    if !bin.hit then mergeRows rows bins
    else rows.takeWhile (fun row => mustRowBin row < bin.start) ++ bin.rows ++
      mergeRows (rows.dropWhile fun row => mustRowBin row < bin.start) bins

/-- What a scan does with its query's rows: the bins it keeps and the table it returns, unless a
row does not start with its bin. -/
def finishScan (limit : ℕ) (bins : List TimeBin) (rows : List Row) :
    Option (List (BinKey × List Row) × List Row) :=
  if rows.all fun row => (rowBin row).isSome then
    some (keptBins limit rows bins, (mergeRows rows bins).take limit)
  else none

section Query

variable {Q Rest : Type*} (B : BinnedQueries Q Rest)

/-- The range a scan runs over: that of its Query, as far as Logs can be stored in it. -/
def scanRange (scan : TableScan Q) : ℤ × ℤ :=
  let fromTime := max (B.fromTime scan.query) firstStorableTime
  let toTime := min (B.toTime scan.query) endOfStorableTime
  (fromTime, if toTime > fromTime then toTime else fromTime)

/-- The Logs of some spans. -/
def logsIn (spans : List (ℤ × ℤ)) (logs : List (Log Rest)) : List (Log Rest) :=
  logs.filter fun log => spans.any fun span => span.1 ≤ log.time && log.time < span.2

/-- The rows of one query over some spans, up to the limit. -/
def queryTable (scan : TableScan Q) (spans : List (ℤ × ℤ)) (logs : List (Log Rest)) : List Row :=
  (B.rows scan.query (logsIn spans logs)).take scan.limit

/-- The rows of the one query over a scan's whole range. -/
def oneQuery (scan : TableScan Q) (logs : List (Log Rest)) : List Row :=
  queryTable B scan [scanRange B scan] logs

/-- The Logs of one bin. -/
def logsOfBin (size start : ℤ) (logs : List (Log Rest)) : List (Log Rest) :=
  logs.filter fun log => binStart log.time size = start

/-- The rows of one bin, worked out from its Logs. -/
def binRows (q : Q) (start : ℤ) (logs : List (Log Rest)) : List Row :=
  B.rows q (logsOfBin (B.size q) start logs)

/-- Bins in order, each of them wholly in the range. -/
structure BinsIn (size : ℤ) (range : ℤ × ℤ) (bins : List TimeBin) : Prop where
  dvd : ∀ bin ∈ bins, size ∣ bin.start
  stop_eq : ∀ bin ∈ bins, bin.stop = bin.start + size
  from_le : ∀ bin ∈ bins, range.1 ≤ bin.start
  le_to : ∀ bin ∈ bins, bin.start + size ≤ range.2
  increasing : bins.Pairwise fun a b => a.start + size ≤ b.start

variable {B}

/-- No Logs give no rows. -/
theorem rows_nil (q : Q) : B.rows q [] = [] := by
  refine List.eq_nil_iff_forall_not_mem.mpr fun row hrow => ?_
  obtain ⟨log, hlog, -⟩ := B.row_bin q [] row hrow
  simp at hlog

/-- What is left of bins in a range lies in it. -/
theorem BinsIn.tail {size : ℤ} {range : ℤ × ℤ} {bin : TimeBin} {bins : List TimeBin}
    (h : BinsIn size range (bin :: bins)) : BinsIn size range bins where
  dvd b hb := h.dvd b (List.mem_cons_of_mem _ hb)
  stop_eq b hb := h.stop_eq b (List.mem_cons_of_mem _ hb)
  from_le b hb := h.from_le b (List.mem_cons_of_mem _ hb)
  le_to b hb := h.le_to b (List.mem_cons_of_mem _ hb)
  increasing := (List.pairwise_cons.mp h.increasing).2

/-- The spans hold the times of the range that no bin taken from the cache does. -/
theorem any_uncachedSpans {size : ℤ} {range : ℤ × ℤ} {bins : List TimeBin} (hsize : 0 < size)
    (hbins : BinsIn size range bins) {start : ℤ} (hstart : ∀ bin ∈ bins, start ≤ bin.start) (t : ℤ) :
    (∃ span ∈ uncachedSpans range.2 start bins, span.1 ≤ t ∧ t < span.2) ↔
      (start ≤ t ∧ t < range.2) ∧
        ∀ bin ∈ bins, bin.hit → ¬ (bin.start ≤ t ∧ t < bin.start + size) := by
  induction bins generalizing start with
  | nil =>
    unfold uncachedSpans
    split
    · simp
    · simp
      omega
  | cons bin bins ih =>
    have hfirst := hstart bin List.mem_cons_self
    have hnext : ∀ b ∈ bins, bin.start + size ≤ b.start := (List.pairwise_cons.mp hbins.increasing).1
    have hlast := hbins.le_to bin List.mem_cons_self
    have hstop := hbins.stop_eq bin List.mem_cons_self
    unfold uncachedSpans
    cases hhit : bin.hit
    · rw [if_pos (by simp), ih hbins.tail fun b hb => by have := hnext b hb; omega]
      simp [hhit]
    · have ih := @ih hbins.tail bin.stop fun b hb => by have := hnext b hb; omega
      have hspan : (∃ span ∈ (if start < bin.start then [(start, bin.start)] else []),
          span.1 ≤ t ∧ t < span.2) ↔ start ≤ t ∧ t < bin.start := by
        split
        · simp
        · simp
          omega
      simp only [Bool.not_true, Bool.false_eq_true, if_false, List.mem_append, or_and_right,
        exists_or, hspan, ih, List.forall_mem_cons, hhit, forall_const]
      rw [hstop]
      constructor
      · intro h
        rcases h with h | ⟨h, hrest⟩
        · refine ⟨by omega, by omega, fun b hb _ => ?_⟩
          have := hnext b hb
          omega
        · exact ⟨by omega, by omega, hrest⟩
      · intro h
        obtain ⟨hin, hout, hrest⟩ := h
        by_cases hbefore : t < bin.start
        · exact Or.inl (by omega)
        · exact Or.inr ⟨by omega, hrest⟩

/-- The Logs that the query of the uncached spans reads. -/
theorem logsIn_uncachedSpans {size : ℤ} {range : ℤ × ℤ} {bins : List TimeBin} (hsize : 0 < size)
    (hbins : BinsIn size range bins) (logs : List (Log Rest)) :
    logsIn (uncachedSpans range.2 range.1 bins) logs = (logsIn [range] logs).filter fun log =>
      ∀ bin ∈ bins, bin.hit → binStart log.time size ≠ bin.start := by
  rw [logsIn, logsIn, List.filter_filter]
  refine List.filter_congr fun log _ => ?_
  have hspans := any_uncachedSpans hsize hbins hbins.from_le log.time
  have hbin : (∀ bin ∈ bins, bin.hit = true → binStart log.time size ≠ bin.start) ↔
      ∀ bin ∈ bins, bin.hit = true → ¬ (bin.start ≤ log.time ∧ log.time < bin.start + size) :=
    forall₂_congr fun bin hmem => by rw [ne_eq, binStart_eq_iff hsize (hbins.dvd bin hmem)]
  rw [Bool.eq_iff_iff]
  simp only [List.any_eq_true, Bool.and_eq_true, decide_eq_true_eq, hspans, hbin, List.mem_singleton,
    exists_eq_left]
  tauto

/-- A bin that lies in the range has the same Logs in the range as in all. -/
theorem logsOfBin_logsIn {size start : ℤ} {range : ℤ × ℤ} (hsize : 0 < size) (hdvd : size ∣ start)
    (hfrom : range.1 ≤ start) (hto : start + size ≤ range.2) (logs : List (Log Rest)) :
    logsOfBin size start (logsIn [range] logs) = logsOfBin size start logs := by
  rw [logsOfBin, logsOfBin, logsIn, List.filter_filter]
  refine List.filter_congr fun log _ => ?_
  by_cases hin : binStart log.time size = start
  · have := (binStart_eq_iff hsize hdvd).mp hin
    simp [hin]
    omega
  · simp [hin]

/-- The Logs of a bin the cache did not have are among those the query reads. -/
theorem logsOfBin_uncached (size : ℤ) {start : ℤ} {bins : List TimeBin} (logs : List (Log Rest))
    (hstart : ∀ bin ∈ bins, bin.hit → bin.start ≠ start) :
    logsOfBin size start (logs.filter fun log =>
      ∀ bin ∈ bins, bin.hit → binStart log.time size ≠ bin.start) = logsOfBin size start logs := by
  rw [logsOfBin, logsOfBin, List.filter_filter]
  refine List.filter_congr fun log _ => ?_
  by_cases hin : binStart log.time size = start
  · simp only [hin, decide_true, Bool.true_and, decide_eq_true_eq]
    exact fun bin hbin hhit => (hstart bin hbin hhit).symm
  · simp [hin]

/-- The query reads no Log of a bin the cache had. -/
theorem logsOfBin_hit (size : ℤ) {bins : List TimeBin} (logs : List (Log Rest)) {bin : TimeBin}
    (hbin : bin ∈ bins) (hhit : bin.hit) :
    logsOfBin size bin.start (logs.filter fun log =>
      ∀ bin ∈ bins, bin.hit → binStart log.time size ≠ bin.start) = [] := by
  rw [logsOfBin, List.filter_filter, List.filter_eq_nil_iff]
  intro log _
  simp only [Bool.and_eq_true, decide_eq_true_eq, not_and, not_forall]
  exact fun hin => ⟨bin, hbin, hhit, not_not.mpr hin⟩

/-- The bins taken from the cache, as blocks of rows. -/
def hitBlocks (bins : List TimeBin) : List (ℤ × List Row) :=
  (bins.filter (·.hit)).map fun bin => (bin.start, bin.rows)

/-- Merging rows with bins is weaving them. -/
theorem mergeRows_eq_weave (rows : List Row) (bins : List TimeBin) :
    mergeRows rows bins = weave mustRowBin rows (hitBlocks bins) := by
  induction bins generalizing rows with
  | nil => rfl
  | cons bin bins ih =>
    cases hhit : bin.hit
    · simp [mergeRows, hitBlocks, hhit, ih]
    · simp [mergeRows, hitBlocks, hhit, ih, weave]

/-- A row of a Query is in the bin of one of its Logs. -/
theorem mustRowBin_of_mem {q : Q} {logs : List (Log Rest)} {row : Row} (hrow : row ∈ B.rows q logs) :
    ∃ log ∈ logs, mustRowBin row = binStart log.time (B.size q) := by
  obtain ⟨log, hlog, hbin⟩ := B.row_bin q logs row hrow
  exact ⟨log, hlog, by rw [mustRowBin, hbin, Option.getD_some]⟩

/-- A row of a bin is in that bin. -/
theorem mustRowBin_of_mem_binRows {q : Q} {start : ℤ} {logs : List (Log Rest)} {row : Row}
    (hrow : row ∈ binRows B q start logs) : mustRowBin row = start := by
  obtain ⟨log, hlog, hbin⟩ := mustRowBin_of_mem hrow
  rw [hbin]
  simpa using List.of_mem_filter hlog

section Assemble

variable {scan : TableScan Q} {range : ℤ × ℤ} {bins : List TimeBin} {logs : List (Log Rest)}
  (hbins : BinsIn (B.size scan.query) range bins)

include hbins

/-- The bins that were hit are blocks of rows, each under its own start. -/
theorem hitBlocks_blocks
    (hhits : ∀ bin ∈ bins, bin.hit → bin.rows = binRows B scan.query bin.start logs) :
    Weave.Blocks mustRowBin (hitBlocks bins) where
  key_eq := by
    intro block hblock row hrow
    obtain ⟨bin, hbin, rfl⟩ := List.mem_map.mp hblock
    obtain ⟨hmem, hhit⟩ := List.mem_filter.mp hbin
    rw [hhits bin hmem hhit] at hrow
    exact mustRowBin_of_mem_binRows hrow
  increasing := by
    refine List.pairwise_map.mpr ((hbins.increasing.filter _).imp fun {a b} hab => ?_)
    have := B.size_pos scan.query
    simp only
    omega

/-- Cached bins that hold the rows of their own Logs, and the query's rows for what the cache
lacked, make the table of the one query over the whole range. -/
theorem mergeRows_take
    (hhits : ∀ bin ∈ bins, bin.hit → bin.rows = binRows B scan.query bin.start logs) :
    (mergeRows (queryTable B scan (uncachedSpans range.2 range.1 bins) logs) bins).take scan.limit =
      queryTable B scan [range] logs := by
  have hsize := B.size_pos scan.query
  have hlogs := logsIn_uncachedSpans hsize hbins logs
  rw [mergeRows_eq_weave, queryTable, Weave.weave_take _ _ _ _ le_rfl, queryTable]
  congr 1
  refine Weave.weave_eq (B.rows_sorted _ _) (B.rows_sorted _ _) (hitBlocks_blocks hbins hhits) ?_ ?_
  · intro block hblock
    obtain ⟨bin, hbin, rfl⟩ := List.mem_map.mp hblock
    obtain ⟨hmem, hhit⟩ := List.mem_filter.mp hbin
    constructor
    · have hnone := logsOfBin_hit (B.size scan.query) (logsIn [range] logs) hmem hhit
      rw [B.rows_under, hlogs, ← logsOfBin, hnone, rows_nil]
    · have hsame := logsOfBin_logsIn hsize (hbins.dvd bin hmem) (hbins.from_le bin hmem)
        (hbins.le_to bin hmem) logs
      simp only
      rw [B.rows_under, ← logsOfBin, hsame, hhits bin hmem hhit, binRows]
  · intro start hstart
    have hother : ∀ bin ∈ bins, bin.hit → bin.start ≠ start := fun bin hmem hhit =>
      hstart _ (List.mem_map.mpr ⟨bin, List.mem_filter.mpr ⟨hmem, hhit⟩, rfl⟩)
    have hsame := logsOfBin_uncached (B.size scan.query) (logsIn [range] logs) hother
    rw [B.rows_under, B.rows_under, hlogs, ← logsOfBin, ← logsOfBin, hsame]

omit hbins in
/-- A bin that is complete has all its rows in what the query gave before its limit. -/
theorem under_queryTable (spans : List (ℤ × ℤ)) {start : ℤ}
    (hcomplete : complete scan.limit (queryTable B scan spans logs) start) :
    under mustRowBin (queryTable B scan spans logs) start =
      binRows B scan.query start (logsIn spans logs) := by
  have hall : binRows B scan.query start (logsIn spans logs) =
      under mustRowBin (B.rows scan.query (logsIn spans logs)) start :=
    (B.rows_under _ _ _).symm
  have hsorted := B.rows_sorted scan.query (logsIn spans logs)
  rw [hall]
  unfold queryTable at hcomplete ⊢
  generalize B.rows scan.query (logsIn spans logs) = rows at hcomplete hsorted
  by_cases hcut : rows.length < scan.limit
  · rw [List.take_of_length_le hcut.le]
  · have hlimit := scan.limit_pos
    have hlength : (rows.take scan.limit).length = scan.limit := by
      rw [List.length_take]
      omega
    obtain ⟨last, hlast⟩ : ∃ last, (rows.take scan.limit).getLast? = some last := by
      refine Option.isSome_iff_exists.mp (List.getLast?_isSome.mpr ?_)
      exact List.ne_nil_of_length_pos (by omega)
    rw [complete, hlast] at hcomplete
    simp only [hlength, le_refl, if_true, decide_eq_true_eq] at hcomplete
    exact Weave.under_take_of_lt hsorted hlast hcomplete

/-- A bin is kept with the rows of its own Logs. -/
theorem mem_keptBins {key : BinKey} {rows : List Row}
    (hkept : (key, rows) ∈ keptBins scan.limit
      (queryTable B scan (uncachedSpans range.2 range.1 bins) logs) bins) :
    ∃ bin ∈ bins, key = bin.key ∧ rows = binRows B scan.query bin.start logs := by
  obtain ⟨bin, hbin, heq⟩ := List.mem_map.mp hkept
  obtain ⟨hmem, hcond⟩ := List.mem_filter.mp hbin
  obtain ⟨rfl, rfl⟩ := Prod.mk.inj heq
  simp only [Bool.and_eq_true, Bool.not_eq_true'] at hcond
  obtain ⟨hmiss, hcomplete⟩ := hcond
  have hsize := B.size_pos scan.query
  refine ⟨bin, hmem, rfl, ?_⟩
  -- a bin of this start was not taken from the cache
  have hother : ∀ b ∈ bins, b.hit → b.start ≠ bin.start := by
    intro b hb hhit hstart
    have hdistinct : bins.Pairwise fun a b => a.start ≠ b.start :=
      hbins.increasing.imp fun {a b} hab => by omega
    have : Std.Symm fun a b : TimeBin => a.start ≠ b.start := ⟨fun _ _ h => h.symm⟩
    have : b = bin := by
      by_contra hne
      exact hdistinct.forall hb hmem hne hstart
    rw [this, hmiss] at hhit
    simp at hhit
  have hunder := under_queryTable _ hcomplete
  rw [under] at hunder
  rw [hunder, binRows, logsIn_uncachedSpans hsize hbins, logsOfBin_uncached _ _ hother,
    logsOfBin_logsIn hsize (hbins.dvd bin hmem) (hbins.from_le bin hmem) (hbins.le_to bin hmem),
    binRows]

end Assemble

/-- Every row of a query starts with its bin. -/
theorem all_rowBin (scan : TableScan Q) (spans : List (ℤ × ℤ)) (logs : List (Log Rest)) :
    (queryTable B scan spans logs).all fun row => (rowBin row).isSome := by
  rw [List.all_eq_true]
  intro row hrow
  obtain ⟨log, -, hbin⟩ := B.row_bin _ _ row (List.mem_of_mem_take hrow)
  simp [hbin]

end Query

section OfBins

variable {Q Rest : Type*}

/-- The bins that some Logs are in, in order. -/
def binStarts (size : ℤ) (logs : List (Log Rest)) : List ℤ :=
  (logs.map fun log => binStart log.time size).dedup.insertionSort (· ≤ ·)

/-- A bin starts where one of its Logs' bins does. -/
theorem mem_binStarts {size start : ℤ} {logs : List (Log Rest)} :
    start ∈ binStarts size logs ↔ ∃ log ∈ logs, binStart log.time size = start := by
  simp [binStarts, List.mem_insertionSort, List.mem_dedup]

/-- Bins start one after another. -/
theorem binStarts_increasing (size : ℤ) (logs : List (Log Rest)) :
    (binStarts size logs).Pairwise (· < ·) := by
  have hsorted : (binStarts size logs).Pairwise (· ≤ ·) := List.pairwise_insertionSort _ _
  have hnodup : (binStarts size logs).Nodup :=
    (List.perm_insertionSort _ _).nodup_iff.mpr (List.nodup_dedup _)
  exact hsorted.imp₂ (fun _ _ hle hne => lt_of_le_of_ne hle hne) hnodup

/-- A table that is one bin's rows after another's. -/
def binnedRows (size : ℤ) (f : ℤ → List (Log Rest) → List Row) (logs : List (Log Rest)) : List Row :=
  (binStarts size logs).flatMap fun start => f start (logsOfBin size start logs)

variable {size : ℤ} {f : ℤ → List (Log Rest) → List Row}
  (hf : ∀ start logs, ∀ row ∈ f start logs, rowBin row = some start)

include hf

/-- A row of a bin's own rows is in that bin. -/
theorem mustRowBin_of_mem_bin {start : ℤ} {logs : List (Log Rest)} {row : Row}
    (hrow : row ∈ f start logs) : mustRowBin row = start := by
  rw [mustRowBin, hf start logs row hrow, Option.getD_some]

/-- Rows bin by bin are sorted by their bins. -/
theorem binnedRows_sorted (logs : List (Log Rest)) :
    Sorted mustRowBin (binnedRows size f logs) := by
  refine List.pairwise_flatMap.mpr ⟨fun start _ => ?_, ?_⟩
  · refine List.pairwise_iff_forall_sublist.mpr fun {a b} hab => ?_
    rw [mustRowBin_of_mem_bin hf (hab.subset (by simp : a ∈ [a, b])),
      mustRowBin_of_mem_bin hf (hab.subset (by simp : b ∈ [a, b]))]
  · refine (binStarts_increasing size logs).imp fun {a b} hab x hx y hy => ?_
    rw [mustRowBin_of_mem_bin hf hx, mustRowBin_of_mem_bin hf hy]
    exact hab.le

/-- Such a table holds under a bin's start the rows of that bin. -/
theorem under_binnedRows (logs : List (Log Rest)) (start : ℤ) :
    under mustRowBin (binnedRows size f logs) start =
      if start ∈ binStarts size logs then f start (logsOfBin size start logs) else [] := by
  have hunder : ∀ a, under mustRowBin (f a (logsOfBin size a logs)) start =
      if a = start then f a (logsOfBin size a logs) else [] := by
    intro a
    split
    · rename_i heq
      refine List.filter_eq_self.mpr fun row hrow => ?_
      simpa [heq] using mustRowBin_of_mem_bin hf hrow
    · rename_i hne
      exact Weave.under_eq_nil fun row hrow => by rwa [mustRowBin_of_mem_bin hf hrow]
  have hone : ∀ starts : List ℤ, starts.Nodup →
      (starts.flatMap fun a => under mustRowBin (f a (logsOfBin size a logs)) start) =
        if start ∈ starts then f start (logsOfBin size start logs) else [] := by
    intro starts hnodup
    induction starts with
    | nil => rfl
    | cons a starts ih =>
      obtain ⟨ha, hnodup⟩ := List.nodup_cons.mp hnodup
      rw [List.flatMap_cons, ih hnodup, hunder a]
      by_cases heq : a = start
      · subst heq
        simp [ha]
      · have hne : ¬ start = a := fun h => heq h.symm
        simp [heq, hne]
  rw [binnedRows, under, List.filter_flatMap]
  exact hone _ ((binStarts_increasing size logs).imp fun h => h.ne)

/-- The rows under a bin are those of the bin's Logs. -/
theorem binnedRows_logsOfBin (logs : List (Log Rest)) (start : ℤ) :
    under mustRowBin (binnedRows size f logs) start =
      binnedRows size f (logsOfBin size start logs) := by
  have hsame : logsOfBin size start (logsOfBin size start logs) = logsOfBin size start logs := by
    rw [logsOfBin, logsOfBin, List.filter_filter]
    simp
  have hmem : ∀ log ∈ logsOfBin size start logs, binStart log.time size = start := fun log hlog => by
    simpa using List.of_mem_filter hlog
  have hall : under mustRowBin (binnedRows size f (logsOfBin size start logs)) start =
      binnedRows size f (logsOfBin size start logs) := by
    refine List.filter_eq_self.mpr fun row hrow => ?_
    obtain ⟨a, ha, hrow⟩ := List.mem_flatMap.mp hrow
    obtain ⟨log, hlog, rfl⟩ := mem_binStarts.mp ha
    simpa [hmem log hlog] using mustRowBin_of_mem_bin hf hrow
  rw [← hall, under_binnedRows hf, under_binnedRows hf, hsame]
  simp only [mem_binStarts]
  refine if_congr ?_ rfl rfl
  constructor
  · intro h
    obtain ⟨log, hlog, hbin⟩ := h
    exact ⟨log, List.mem_filter.mpr ⟨hlog, by simpa using hbin⟩, hbin⟩
  · intro h
    obtain ⟨log, hlog, hbin⟩ := h
    exact ⟨log, (List.mem_filter.mp hlog).1, hbin⟩

omit hf in
/-- Queries whose tables are one bin's rows after another's, where a bin in the range has the same
rows whatever the range. -/
def BinnedQueries.ofBins (fromTime toTime size : Q → ℤ) (key : Q → String)
    (f : Q → ℤ → List (Log Rest) → List Row) (hsize : ∀ q, 0 < size q)
    (hf : ∀ q start logs, ∀ row ∈ f q start logs, rowBin row = some start)
    (hwhole : ∀ q q' start logs, key q = key q' → size q = size q' →
      fromTime q ≤ start → start + size q ≤ toTime q →
      fromTime q' ≤ start → start + size q ≤ toTime q' →
      (∀ log ∈ logs, binStart log.time (size q) = start) → f q start logs = f q' start logs) :
    BinnedQueries Q Rest where
  fromTime := fromTime
  toTime := toTime
  size := size
  key := key
  rows q logs := binnedRows (size q) (f q) logs
  size_pos := hsize
  row_bin q logs row hrow := by
    obtain ⟨start, hstart, hrow⟩ := List.mem_flatMap.mp hrow
    obtain ⟨log, hlog, rfl⟩ := mem_binStarts.mp hstart
    exact ⟨log, hlog, hf q _ _ row hrow⟩
  rows_sorted q logs := binnedRows_sorted (hf q) logs
  rows_under q logs start := binnedRows_logsOfBin (hf q) logs start
  rows_whole q q' start logs hkey hsize' hfrom hto hfrom' hto' hlogs := by
    refine List.flatMap_congr ?_ |>.trans (by rw [hsize', binnedRows])
    intro a ha
    obtain ⟨log, hlog, rfl⟩ := mem_binStarts.mp ha
    rw [hlogs log hlog, ← hsize']
    refine hwhole q q' start _ hkey hsize' hfrom hto hfrom' hto' fun l hl => ?_
    exact hlogs l (List.mem_filter.mp hl).1

end OfBins

end SolidTrace.LogTables
