import Mathlib.Data.List.Flatten
import SolidTrace.LogPages.ScanLogs

/-!
# What a scan reads

A page of a scan is the first of the Logs after its position that it is asked for, and the position
it gives is where the others start.
-/

namespace SolidTrace.LogPages

open LogQuery

section Order

/-- One Log comes strictly before another, newest first. -/
def Newer (a b : Log) : Prop := b.micros < a.micros ∨ a.micros = b.micros ∧ b.id.toNat < a.id.toNat

/-- Two Logs differ in time or id. -/
def Apart (a b : Log) : Prop := a.micros = b.micros → a.id ≠ b.id

/-- Of two Logs one at most is newer. -/
theorem Newer.asymm (a b : Log) (h : Newer a b) : ¬Newer b a := by
  unfold Newer at *
  omega

/-- Any two Logs are in order one way. -/
theorem newerFirst_total (a b : Log) : newerFirst a b ∨ newerFirst b a := by
  unfold newerFirst
  omega

/-- The order of Logs is transitive. -/
theorem newerFirst_trans (a b c : Log) (hab : newerFirst a b) (hbc : newerFirst b c) :
    newerFirst a c := by
  unfold newerFirst at *
  omega

/-- Logs that differ in time or id are strictly ordered. -/
theorem newer_of_apart {a b : Log} (h : newerFirst a b) (hapart : Apart a b) : Newer a b := by
  have hne : a.micros = b.micros → a.id.toNat ≠ b.id.toNat := fun h₁ h₂ =>
    hapart h₁ (BitVec.eq_of_toNat_eq h₂)
  unfold newerFirst at h
  unfold Newer
  omega

/-- Logs that differ, newest first, are strictly so. -/
theorem pairwise_newer {logs sorted : List Log} (hapart : logs.Pairwise Apart)
    (hperm : sorted.Perm logs) (hsorted : sorted.Pairwise newerFirst) : sorted.Pairwise Newer := by
  have hsymm : ∀ {a b : Log}, Apart a b → Apart b a := fun h heq hid => h heq.symm hid.symm
  have hapart' : sorted.Pairwise Apart := (hperm.pairwise_iff hsymm).2 hapart
  exact (hsorted.and hapart').imp fun h => newer_of_apart h.1 h.2

/-- Logs newest first. -/
def newestFirst (logs : List Log) : List Log := logs.insertionSort newerFirst

/-- Sorting loses no Log and adds none. -/
theorem mem_newestFirst {logs : List Log} {log : Log} : log ∈ newestFirst logs ↔ log ∈ logs :=
  (List.perm_insertionSort newerFirst logs).mem_iff

/-- Logs are sorted newest first. -/
theorem newestFirst_sorted (logs : List Log) : (newestFirst logs).Pairwise newerFirst := by
  have : Std.Total newerFirst := ⟨newerFirst_total⟩
  have : IsTrans Log newerFirst := ⟨newerFirst_trans⟩
  exact List.pairwise_insertionSort newerFirst logs

/-- Logs that all differ are strictly newest first. -/
theorem newestFirst_newer {logs : List Log} (h : logs.Pairwise Apart) :
    (newestFirst logs).Pairwise Newer :=
  pairwise_newer h (List.perm_insertionSort newerFirst logs) (newestFirst_sorted logs)

end Order

section OldFiles

/-- The least of some values is at or below each of them. -/
theorem foldl_min_le {α : Type} (f : α → ℤ) (xs : List α) (x : ℤ) :
    xs.foldl (fun m a => min m (f a)) x ≤ x ∧ ∀ a ∈ xs, xs.foldl (fun m a => min m (f a)) x ≤ f a := by
  induction xs generalizing x with
  | nil => simp
  | cons a rest ih =>
    obtain ⟨hx, hrest⟩ := ih (min x (f a))
    simp only [List.foldl_cons, List.mem_cons, forall_eq_or_imp]
    exact ⟨by omega, by omega, hrest⟩

/-- The greatest of some values is at or above each of them. -/
theorem le_foldl_max {α : Type} (f : α → ℤ) (xs : List α) (x : ℤ) :
    x ≤ xs.foldl (fun m a => max m (f a)) x ∧ ∀ a ∈ xs, f a ≤ xs.foldl (fun m a => max m (f a)) x := by
  induction xs generalizing x with
  | nil => simp
  | cons a rest ih =>
    obtain ⟨hx, hrest⟩ := ih (max x (f a))
    simp only [List.foldl_cons, List.mem_cons, forall_eq_or_imp]
    exact ⟨by omega, by omega, hrest⟩

/-- The Logs of files that meet conditions. -/
def logsOf (sources : List OldLogFile) (conditions : OldLogFile → Log → Bool) : List Log :=
  (union sources conditions).map Prod.fst

/-- The Logs of sources are those of each that pass its conditions. -/
theorem mem_logsOf {sources : List OldLogFile} {conditions : OldLogFile → Log → Bool} {log : Log} :
    log ∈ logsOf sources conditions ↔
      ∃ file ∈ sources, log ∈ file.logs ∧ conditions file log = true := by
  simp [logsOf, union]

/-- The Logs of sources, one source after another. -/
theorem logsOf_eq (sources : List OldLogFile) (conditions : OldLogFile → Log → Bool) :
    logsOf sources conditions = sources.flatMap fun file => file.logs.filter (conditions file) := by
  simp [logsOf, union, List.map_flatMap, Function.comp_def]

/-- Fewer sources and narrower conditions give fewer Logs. -/
theorem logsOf_sublist {sources holding : List OldLogFile} {conditions more : OldLogFile → Log → Bool}
    (hholding : holding.Sublist sources)
    (hmore : ∀ file log, more file log = true → conditions file log = true) :
    (logsOf holding more).Sublist (logsOf sources conditions) := by
  rw [logsOf_eq, logsOf_eq]
  refine (List.Sublist.flatMap_right holding fun file _ => ?_).trans (hholding.flatMap _)
  have : file.logs.filter (more file) = (file.logs.filter (conditions file)).filter (more file) := by
    rw [List.filter_filter]
    apply List.filter_congr
    intro log _
    cases h : more file log with
    | false => simp
    | true => simp [hmore file log h]
  rw [this]
  exact List.filter_sublist

/-- The union that is sorted by its Logs holds the Logs newest first. -/
theorem union_newest (sources : List OldLogFile) (conditions : OldLogFile → Log → Bool) :
    ((union sources conditions).insertionSort fun a b => newerFirst a.1 b.1).map Prod.fst =
      newestFirst (logsOf sources conditions) :=
  List.map_insertionSort (fun a b : Log × String => newerFirst a.1 b.1) newerFirst Prod.fst _
    fun _ _ _ _ => Iff.rfl

/-- What the second of the two steps asks of a Log that the first one found. -/
theorem found_holds {sources : List OldLogFile} {conditions : OldLogFile → Log → Bool} {log : Log}
    {row : Log × String} {rest : List (Log × String)}
    (hsub : ∀ found ∈ row :: rest, found ∈ union sources conditions)
    (hlog : log ∈ (row :: rest).map Prod.fst) :
    log ∈ logsOf
      (sources.filter fun file =>
        (row :: rest).any fun row => ("/" ++ file.key).toList.isSuffixOf row.2.toList)
      (fun file log => conditions file log &&
        within (rest.foldl (fun first row => min first row.1.time) row.1.time,
          rest.foldl (fun stop row => max stop (row.1.time + 1000)) (row.1.time + 1000)) log.micros &&
        (row :: rest).any fun row => row.1.id = log.id) := by
  obtain ⟨found, hfound, rfl⟩ := List.mem_map.1 hlog
  have hunion := hsub found hfound
  simp only [union, List.mem_flatMap, List.mem_map, List.mem_filter] at hunion
  obtain ⟨file, hfile, log, ⟨hmem, hcond⟩, rfl⟩ := hunion
  have hfirst := foldl_min_le (fun row : Log × String => row.1.time) rest row.1.time
  have hstop := le_foldl_max (fun row : Log × String => row.1.time + 1000) rest (row.1.time + 1000)
  rw [mem_logsOf]
  refine ⟨file, ?_, hmem, ?_⟩
  · simp only [List.mem_filter, hfile, true_and, List.any_eq_true]
    refine ⟨_, hfound, ?_⟩
    simp only [List.isSuffixOf_iff_suffix, OldLogFile.path, String.append_assoc, String.toList_append]
    exact List.suffix_append _ _
  · have hany : ((row :: rest).any fun row => row.1.id = log.id) = true :=
      List.any_eq_true.2 ⟨_, hfound, by simp⟩
    have hspan : rest.foldl (fun first row => min first row.1.time) row.1.time ≤ log.time ∧
        log.time + 1000 ≤ rest.foldl (fun stop row => max stop (row.1.time + 1000)) (row.1.time + 1000) := by
      rcases List.mem_cons.1 hfound with rfl | hrest
      · exact ⟨hfirst.1, hstop.1⟩
      · exact ⟨hfirst.2 _ hrest, hstop.2 _ hrest⟩
    simp only [hcond, hany, Bool.true_and, Bool.and_true, decide_eq_true_eq]
    have htime : log.time = 1000 * log.micros := rfl
    unfold within
    simp only
    generalize rest.foldl _ _ = first at hspan ⊢
    generalize rest.foldl _ _ = stop at hspan ⊢
    omega

/-- The newest Logs of files are read in two steps as they are in one. -/
theorem newestLogs_eq {sources : List OldLogFile} {conditions : OldLogFile → Log → Bool} {limit : ℕ}
    (hapart : (logsOf sources conditions).Pairwise Apart) :
    newestLogs sources conditions limit = (newestFirst (logsOf sources conditions)).take limit := by
  unfold newestLogs
  rw [← union_newest, ← List.map_take]
  split
  next hfound => rw [hfound]; rfl
  next row rest hfound =>
    have hsub : ∀ found ∈ row :: rest, found ∈ union sources conditions := by
      intro found h
      rw [← hfound] at h
      exact (List.perm_insertionSort _ _).mem_iff.1 (List.mem_of_mem_take h)
    rw [List.map_take, union_newest]
    have hfirst : (newestFirst (logsOf sources conditions)).take limit = (row :: rest).map Prod.fst := by
      rw [← union_newest, ← List.map_take, hfound]
    apply StrictOrder.take_eq_of_subset Newer.asymm (newestFirst_newer hapart)
    · apply newestFirst_newer
      exact hapart.sublist (logsOf_sublist List.filter_sublist fun file log h => by
        simp only [Bool.and_eq_true] at h
        exact h.1.1)
    · intro log hlog
      rw [mem_newestFirst]
      exact (logsOf_sublist List.filter_sublist fun file log h => by
        simp only [Bool.and_eq_true] at h
        exact h.1.1).subset (mem_newestFirst.1 hlog)
    · intro log hlog
      rw [hfirst] at hlog
      exact mem_newestFirst.2 (found_holds hsub hlog)

end OldFiles

section Spans

variable {ch : ClickHouse} (p : Project)

/-- A Project's Logs that meet conditions, but for those in files that can't be read. -/
def Project.selected (conditions : Columns → Log → Bool) : List Log :=
  p.table.filter (conditions (clickHouseColumns none)) ++
    logsOf (p.files.filter (OldLogFile.readable p.bucket)) fun file => conditions file.columns

variable {p}

/-- What a Project reads is in the table, or in an old file that can be read. -/
theorem Project.mem_selected {conditions : Columns → Log → Bool} {log : Log} :
    log ∈ p.selected conditions ↔
      (log ∈ p.table ∧ conditions (clickHouseColumns none) log = true) ∨
      ∃ file ∈ p.files, file.readable p.bucket = true ∧ log ∈ file.logs ∧
        conditions file.columns log = true := by
  simp [Project.selected, mem_logsOf, and_assoc]

/-- Logs of the table and of some of the files differ. -/
theorem Project.apart_of_sublist {holding : List OldLogFile} (hholding : holding.Sublist p.files)
    (tableTest : Log → Bool) (fileTest : OldLogFile → Log → Bool) :
    (p.table.filter tableTest ++ logsOf holding fileTest).Pairwise Apart := by
  have hall : logsOf p.files (fun _ _ => true) = p.files.flatMap OldLogFile.logs := by
    rw [logsOf_eq]
    simp
  have hapart : (p.table ++ p.files.flatMap OldLogFile.logs).Pairwise Apart := p.apart
  apply List.Pairwise.sublist _ hapart
  rw [← hall]
  exact List.filter_sublist.append (logsOf_sublist hholding fun _ _ _ => rfl)

/-- What a Project reads is strictly newest first, since its Logs differ. -/
theorem Project.selected_newer (conditions : Columns → Log → Bool) :
    (newestFirst (p.selected conditions)).Pairwise Newer :=
  newestFirst_newer (p.apart_of_sublist List.filter_sublist _ _)

/-- A file with a Log of a span overlaps it. -/
theorem inSpan_of_mem {file : OldLogFile} {span : ℤ × ℤ} {log : Log} (hlog : log ∈ file.logs)
    (hspan : within span log.micros) : inSpan span file = true := by
  have hfile := file.spans log hlog
  have htime : log.time = 1000 * log.micros := rfl
  unfold within at hspan
  simp only [inSpan, Bool.and_eq_true, decide_eq_true_eq]
  omega

/-- The table's and the old files' newest Logs of a span, merged, are the newest of them all. -/
theorem Project.span_newest (scan : LogScan) (span : ℤ × ℤ) (limit : ℕ) :
    mergeNewestFirst (p.queryLogs ch scan span limit) (p.scanOld ch scan span limit) limit =
      (newestFirst (p.selected (scan.conditions ch span))).take limit := by
  have hsources : (p.sources span).Sublist p.files := List.filter_sublist
  have happart := p.apart_of_sublist hsources (scan.conditions ch span (clickHouseColumns none))
    fun file => scan.conditions ch span file.columns
  unfold mergeNewestFirst Project.queryLogs Project.scanOld
  rw [newestLogs_eq (List.pairwise_append.1 happart).2.1]
  apply StrictOrder.mergeTake_eq_take Newer.asymm newerFirst_total newerFirst_trans
    (newestFirst_sorted _) (newestFirst_sorted _) _ (p.selected_newer _)
  · intro log
    rw [mem_newestFirst, Project.mem_selected, mem_newestFirst, List.mem_filter, mem_newestFirst,
      mem_logsOf]
    apply or_congr_right
    constructor
    · rintro ⟨file, hfile, hreadable, hlog, hcond⟩
      have hspan : within span log.micros := by
        simp only [LogScan.conditions, Bool.and_eq_true, decide_eq_true_eq] at hcond
        exact hcond.1.1
      refine ⟨file, ?_, hlog, hcond⟩
      simp [Project.sources, hfile, hreadable, inSpan_of_mem hlog hspan]
    · rintro ⟨file, hfile, hlog, hcond⟩
      simp only [Project.sources, List.mem_filter, Bool.and_eq_true] at hfile
      exact ⟨file, hfile.1, hfile.2.2, hlog, hcond⟩
  · intro sorted hperm hsorted
    apply pairwise_newer happart _ hsorted
    exact hperm.trans ((List.perm_insertionSort _ _).append (List.perm_insertionSort _ _))

/-- A Log after a position, strictly older in newest-first order. -/
def LogPosition.before (pos : LogPosition) (log : Log) : Bool :=
  log.time < pos.time || log.time = pos.time && log.id.toNat < pos.id.toNat

/-- What a scan that is to give the Logs `all` of a range gives: they are all on its page, or its
page's and those after the position it goes on from, which is its last Log's, or a time in the
range. -/
structure Reads (all : List Log) (range : ℤ × ℤ) (limit : ℕ) (page : LogScanPage) : Prop where
  length_le : page.logs.length ≤ limit
  all_of_none : page.next = none → page.logs = all
  rest_of_some : ∀ pos, page.next = some pos → page.logs ++ all.filter pos.before = all
  position : ∀ pos, page.next = some pos →
    (∃ last ∈ page.logs, pos = ⟨last.time, last.id⟩) ∨
      pos.id = 0 ∧ pos.time % 1000 = 0 ∧ range.1 < pos.time ∧ pos.time < range.2

/-- A Log comes after a position at the last Log when it is older than that. -/
theorem before_last_iff (last log : Log) :
    LogPosition.before ⟨last.time, last.id⟩ log = true ↔ Newer last log := by
  simp only [LogPosition.before, Bool.or_eq_true, Bool.and_eq_true, decide_eq_true_eq]
  unfold Newer Log.time
  omega

/-- A page that is full goes on after its last Log. -/
theorem reads_full {all logs rest : List Log} {range : ℤ × ℤ} {limit : ℕ} (hall : all.Pairwise Newer)
    (heq : all = logs ++ rest) (hlimit : 0 < limit) (hlength : logs.length = limit) :
    Reads all range limit ⟨logs, logs.getLast?.map fun last => ⟨last.time, last.id⟩⟩ := by
  have hne : logs ≠ [] := by
    rintro rfl
    simp at hlength
    omega
  obtain ⟨init, last, rfl⟩ : ∃ init last, logs = init ++ [last] :=
    ⟨logs.dropLast, logs.getLast hne, (List.dropLast_append_getLast hne).symm⟩
  simp only [List.getLast?_append_cons, List.getLast?_singleton, Option.map_some]
  refine ⟨hlength.le, nofun, ?_, ?_⟩
  · rintro pos ⟨rfl⟩
    have hsplit : all = init ++ last :: rest := by simp [heq]
    rw [hsplit] at hall ⊢
    rw [StrictOrder.filter_after_last Newer.asymm hall fun log _ => before_last_iff last log]
    simp
  · rintro pos ⟨rfl⟩
    exact .inl ⟨last, by simp, rfl⟩

/-- What is left of Logs once a scan is down to a time. -/
theorem filter_from_append {all : List Log} (hall : all.Pairwise Newer) (t : ℤ) :
    all.filter (fun log => t ≤ log.micros) ++ all.filter (fun log => log.micros < t) = all := by
  apply StrictOrder.filter_append_filter hall
  · intro a _ b _ hab hb
    simp only [decide_eq_true_eq] at hb ⊢
    unfold Newer at hab
    omega
  · intro a _
    by_cases h : t ≤ a.micros
    · simp [h]
    · simp [h]
      omega

/-- The Logs that meet conditions are those that meet a part of them and the rest. -/
theorem Project.selected_filter (p : Project) {conditions part : Columns → Log → Bool}
    {test : Log → Bool} (h : ∀ cols log, firstStorableTime ≤ log.time ∧ log.time < endOfStorableTime →
      (conditions cols log = true ↔ part cols log = true ∧ test log = true)) :
    newestFirst (p.selected conditions) = (newestFirst (p.selected part)).filter test := by
  apply StrictOrder.eq_of_mem_iff Newer.asymm (p.selected_newer _) ((p.selected_newer _).filter _)
  intro log
  simp only [mem_newestFirst, List.mem_filter, Project.mem_selected]
  have hcond : ∀ cols, (log ∈ p.table ∨ ∃ file ∈ p.files, log ∈ file.logs) →
      (conditions cols log = true ↔ part cols log = true ∧ test log = true) := by
    intro cols hlog
    apply h cols log (p.storable log _)
    rw [List.mem_append, List.mem_flatMap]
    exact hlog
  constructor
  · rintro (⟨hlog, hc⟩ | ⟨file, hfile, hreadable, hlog, hc⟩)
    · obtain ⟨hpart, htest⟩ := (hcond _ (.inl hlog)).1 hc
      exact ⟨.inl ⟨hlog, hpart⟩, htest⟩
    · obtain ⟨hpart, htest⟩ := (hcond _ (.inr ⟨file, hfile, hlog⟩)).1 hc
      exact ⟨.inr ⟨file, hfile, hreadable, hlog, hpart⟩, htest⟩
  · rintro ⟨⟨hlog, hpart⟩ | ⟨file, hfile, hreadable, hlog, hpart⟩, htest⟩
    · exact .inl ⟨hlog, (hcond _ (.inl hlog)).2 ⟨hpart, htest⟩⟩
    · exact .inr ⟨file, hfile, hreadable, hlog, (hcond _ (.inr ⟨file, hfile, hlog⟩)).2 ⟨hpart, htest⟩⟩

/-- The Logs of a span are those of all it is to read. -/
theorem Project.selected_span {scan : LogScan} {range span : ℤ × ℤ} (hfrom : range.1 ≤ span.1)
    (hto : span.2 ≤ range.2) :
    newestFirst (p.selected (scan.conditions ch span)) =
      (newestFirst (p.selected (scan.conditions ch range))).filter
        fun log => within span log.micros := by
  apply p.selected_filter
  intro cols log _
  have hsub : within span log.micros → within range log.micros := by
    unfold within
    omega
  simp only [LogScan.conditions, Bool.and_eq_true, decide_eq_true_eq]
  tauto

/-- One span more takes a scan down to its start. -/
theorem filter_span {all : List Log} (hall : all.Pairwise Newer) {spanFrom spanTo : ℤ}
    (h : spanFrom ≤ spanTo) :
    all.filter (fun log => spanTo / 1000 ≤ log.micros) ++
        all.filter (fun log => within (spanFrom, spanTo) log.micros) =
      all.filter fun log => spanFrom / 1000 ≤ log.micros := by
  have hsplit := filter_from_append (hall.filter fun log => spanFrom / 1000 ≤ log.micros) (spanTo / 1000)
  rw [← hsplit]
  simp only [List.filter_filter]
  congr 1
  · apply List.filter_congr
    intro log _
    rw [Bool.eq_iff_iff]
    simp only [Bool.and_eq_true, decide_eq_true_eq]
    exact ⟨fun hlog => ⟨hlog, by omega⟩, And.left⟩
  · apply List.filter_congr
    intro log _
    rw [Bool.eq_iff_iff]
    simp only [Bool.and_eq_true, decide_eq_true_eq]
    exact and_comm

/-- After a whole microsecond with the nil id come the Logs of times before it. -/
theorem before_time {all : List Log} {t : ℤ} (ht : t % 1000 = 0) :
    all.filter (LogPosition.before ⟨t, 0⟩) = all.filter fun log => log.micros < t / 1000 := by
  apply List.filter_congr
  intro log _
  have htime : log.time = 1000 * log.micros := rfl
  have hnil : BitVec.toNat (0 : UUID) = 0 := rfl
  rw [Bool.eq_iff_iff]
  simp only [LogPosition.before, Bool.or_eq_true, Bool.and_eq_true, decide_eq_true_eq]
  omega

/-- A span's start is a whole microsecond, where its end is. -/
theorem spanStart_aligned {spanTo span : ℤ} (hspan : span % 1000 = 0)
    (hto : 0 < span → spanTo % 1000 = 0) : spanStart spanTo span % 1000 = 0 := by
  unfold spanStart
  split
  next h =>
    have := hto h
    omega
  · have := Int.mul_ediv_add_emod (spanTo - 1000) hour
    have hhour : hour = 1000 * 3600000000 := rfl
    have hmul : spanTo - 1000 - (spanTo - 1000) % hour =
        1000 * (3600000000 * ((spanTo - 1000) / hour)) := by
      rw [hhour] at this ⊢
      linarith
    rw [hmul]
    exact Int.mul_emod_right 1000 _

/-- What a scan has found after one span more: the first of the Logs down to the span's start. -/
theorem Project.scanSpans_step {scan : LogScan} {range : ℤ × ℤ} {all logs : List Log}
    {spanFrom spanTo : ℤ} (hall : all = newestFirst (p.selected (scan.conditions ch range)))
    (hfrom : range.1 ≤ spanFrom) (hto : spanTo ≤ range.2) (hspan : spanFrom ≤ spanTo)
    (hlogs : logs = all.filter fun log => spanTo / 1000 ≤ log.micros) (left : ℕ) :
    ∃ rest, all.filter (fun log => spanFrom / 1000 ≤ log.micros) =
        logs ++ mergeNewestFirst (p.queryLogs ch scan (spanFrom, spanTo) left)
          (p.scanOld ch scan (spanFrom, spanTo) left) left ++ rest ∧
      (mergeNewestFirst (p.queryLogs ch scan (spanFrom, spanTo) left)
        (p.scanOld ch scan (spanFrom, spanTo) left) left).length ≤ left ∧
      ((mergeNewestFirst (p.queryLogs ch scan (spanFrom, spanTo) left)
        (p.scanOld ch scan (spanFrom, spanTo) left) left).length < left → rest = []) := by
  have hnewer : all.Pairwise Newer := by
    rw [hall]
    exact p.selected_newer _
  have hselected : newestFirst (p.selected (scan.conditions ch (spanFrom, spanTo))) =
      all.filter fun log => within (spanFrom, spanTo) log.micros := by
    rw [hall]
    exact Project.selected_span hfrom hto
  rw [Project.span_newest, hselected, ← filter_span hnewer hspan, ← hlogs]
  refine ⟨(all.filter fun log => within (spanFrom, spanTo) log.micros).drop left, ?_, ?_, ?_⟩
  · rw [List.append_assoc, List.take_append_drop]
  · rw [List.length_take]
    omega
  · rw [List.length_take]
    intro h
    exact List.drop_eq_nil_of_le (by omega)

/-- From any span on, a scan that has found the Logs after it reads the others. -/
theorem Project.scanSpans_reads {scan : LogScan} {range : ℤ × ℤ} {all : List Log} {fromTime : ℤ}
    (hall : all = newestFirst (p.selected (scan.conditions ch range))) (hrange : range.1 ≤ fromTime)
    (hfrom : ∀ log ∈ all, fromTime / 1000 ≤ log.micros) (read : ℕ) (spanTo span : ℤ)
    (logs : List Log) (hto : spanTo ≤ range.2)
    (hlogs : logs = all.filter fun log => spanTo / 1000 ≤ log.micros)
    (hshort : logs.length < scan.limit) (hspan : span % 1000 = 0)
    (haligned : 0 < span → fromTime < spanTo → spanTo % 1000 = 0) :
    Reads all range scan.limit (p.scanSpans ch scan fromTime read spanTo span logs) := by
  have hnewer : all.Pairwise Newer := by
    rw [hall]
    exact p.selected_newer _
  fun_induction p.scanSpans ch scan fromTime read spanTo span logs with
  | case1 read spanTo span logs hlt spanFrom left found hfull =>
    have hstart := spanStart_lt spanTo span
    obtain ⟨rest, hdown, hle, -⟩ :=
      scanSpans_step hall (by omega : range.1 ≤ spanFrom) hto (by omega) hlogs left
    have hall : all = found ++ (rest ++ all.filter fun log => log.micros < spanFrom / 1000) := by
      rw [← List.append_assoc, ← hdown]
      exact (filter_from_append hnewer _).symm
    have hlength : found.length = scan.limit := by
      simp only [found, List.length_append] at hfull ⊢
      omega
    exact reads_full hnewer hall (by omega) hlength
  | case2 read spanTo span logs hlt spanFrom left found hfull hspent =>
    have hstart := spanStart_lt spanTo span
    obtain ⟨rest, hdown, hle, hrest⟩ :=
      scanSpans_step hall (by omega : range.1 ≤ spanFrom) hto (by omega) hlogs left
    rw [hrest (by simp only [found, List.length_append] at hfull; omega), List.append_nil] at hdown
    have hwhole : spanFrom % 1000 = 0 := by
      have hmax : spanFrom = spanStart spanTo span := by omega
      rw [hmax]
      exact spanStart_aligned hspan fun h => haligned h hlt
    refine ⟨(Nat.lt_of_not_le hfull).le, nofun, ?_, ?_⟩
    · rintro pos ⟨rfl⟩
      rw [before_time hwhole]
      change found ++ _ = all
      rw [show found = _ from hdown.symm]
      exact filter_from_append hnewer _
    · rintro pos ⟨rfl⟩
      exact .inr ⟨rfl, hwhole, show range.1 < spanFrom ∧ spanFrom < range.2 by omega⟩
  | case3 read spanTo span logs hlt spanFrom left found hfull hspent ih =>
    have hstart := spanStart_lt spanTo span
    obtain ⟨rest, hdown, hle, hrest⟩ :=
      scanSpans_step hall (by omega : range.1 ≤ spanFrom) hto (by omega) hlogs left
    rw [hrest (by simp only [found, List.length_append] at hfull; omega), List.append_nil] at hdown
    apply ih
    · omega
    · exact hdown.symm
    · omega
    · have hhour : hour = 1000 * 3600000000 := rfl
      have hmax : maxScanSpan = 1000 * 86400000000 := rfl
      omega
    · intro _ hlt'
      have hmax : spanFrom = spanStart spanTo span := by omega
      rw [hmax]
      exact spanStart_aligned hspan fun h => haligned h hlt
  | case4 read spanTo span logs hle =>
    have heq : logs = all := by
      rw [hlogs, List.filter_eq_self]
      intro log hlog
      have := hfrom log hlog
      simp only [decide_eq_true_eq]
      omega
    exact ⟨hshort.le, fun _ => heq, nofun, nofun⟩

/-- The least of a list is at or below each of it. -/
theorem min?_le_of_mem {xs : List ℤ} {x m : ℤ} (hx : x ∈ xs) (hm : xs.min? = some m) : m ≤ x :=
  (List.min?_eq_some_iff.1 hm).2 x hx

/-- The greatest of a list is at or above each of it. -/
theorem le_max?_of_mem {xs : List ℤ} {x m : ℤ} (hx : x ∈ xs) (hm : xs.max? = some m) : x ≤ m :=
  (List.max?_eq_some_iff.1 hm).2 x hx

/-- The oldest and newest times of the table's Logs bound those of a range. -/
theorem Project.timeSpan_bounds {range : ℤ × ℤ} {log : Log} (hlog : log ∈ p.table)
    (hwithin : within range log.micros) :
    ∃ bounds, p.timeSpan range = some bounds ∧ bounds.1 ≤ log.time ∧ log.time ≤ bounds.2 := by
  have hmem : log.time ∈ (p.table.filter fun log =>
      toDate range.1 ≤ toDate log.time && toDate log.time ≤ toDate (range.2 - 1000)).map Log.time := by
    refine List.mem_map_of_mem (List.mem_filter.2 ⟨hlog, ?_⟩)
    have htime : log.time = 1000 * log.micros := rfl
    unfold within at hwithin
    simp only [Bool.and_eq_true, decide_eq_true_eq]
    unfold toDate
    omega
  unfold Project.timeSpan
  simp only
  generalize (p.table.filter fun log =>
    toDate range.1 ≤ toDate log.time && toDate log.time ≤ toDate (range.2 - 1000)).map Log.time =
      times at hmem
  obtain ⟨oldest, hmin⟩ : ∃ m, times.min? = some m := Option.isSome_iff_exists.1 (by
    rw [List.isSome_min?_iff]; exact List.ne_nil_of_mem hmem)
  obtain ⟨newest, hmax⟩ : ∃ m, times.max? = some m := Option.isSome_iff_exists.1 (by
    rw [List.isSome_max?_iff]; exact List.ne_nil_of_mem hmem)
  rw [hmin, hmax]
  exact ⟨_, rfl, min?_le_of_mem hmem hmin, le_max?_of_mem hmem hmax⟩

/-- What the old files may hold bounds their Logs of a range. -/
theorem Project.oldSpan_bounds {range : ℤ × ℤ} {file : OldLogFile} {log : Log}
    (hfile : file ∈ p.files) (hlog : log ∈ file.logs) (hwithin : within range log.micros) :
    ∃ bounds, p.oldSpan range = some bounds ∧ bounds.1 < log.time + 1000 ∧ log.time ≤ bounds.2 := by
  have hspans := file.spans log hlog
  have htime : log.time = 1000 * log.micros := rfl
  have hkept : file ∈ p.files.filter (inSpan range) :=
    List.mem_filter.2 ⟨hfile, inSpan_of_mem hlog hwithin⟩
  have hfirst := List.mem_map_of_mem (f := fun file : OldLogFile => max file.fromTime range.1) hkept
  have hlast := List.mem_map_of_mem (f := fun file : OldLogFile => min file.toTime range.2 - 1000) hkept
  unfold Project.oldSpan
  simp only
  obtain ⟨first, hmin⟩ : ∃ m, ((p.files.filter (inSpan range)).map fun file =>
      max file.fromTime range.1).min? = some m := Option.isSome_iff_exists.1 (by
    rw [List.isSome_min?_iff]; exact List.ne_nil_of_mem hfirst)
  obtain ⟨last, hmax⟩ : ∃ m, ((p.files.filter (inSpan range)).map fun file =>
      min file.toTime range.2 - 1000).max? = some m := Option.isSome_iff_exists.1 (by
    rw [List.isSome_max?_iff]; exact List.ne_nil_of_mem hlast)
  rw [hmin, hmax]
  have hle := min?_le_of_mem hfirst hmin
  have hge := le_max?_of_mem hlast hmax
  unfold within at hwithin
  refine ⟨_, rfl, ?_, ?_⟩
  · simp only at hle ⊢
    omega
  · simp only at hge ⊢
    omega

/-- A scan's span bounds the Logs of its range, to the microsecond. -/
theorem Project.span_bounds {range : ℤ × ℤ} {conditions : Columns → Log → Bool} {log : Log}
    (hlog : log ∈ p.selected conditions) (hwithin : within range log.micros) :
    ∃ bounds, p.span range = some bounds ∧ bounds.1 < log.time + 1000 ∧ log.time ≤ bounds.2 := by
  unfold Project.span
  rcases Project.mem_selected.1 hlog with ⟨htable, -⟩ | ⟨file, hfile, -, hfileLog, -⟩
  · obtain ⟨bounds, hbounds, hfirst, hlast⟩ := p.timeSpan_bounds htable hwithin
    rw [hbounds]
    cases p.oldSpan range with
    | none => exact ⟨bounds, rfl, by omega, hlast⟩
    | some old =>
      refine ⟨_, rfl, ?_, ?_⟩
      · simp only
        omega
      · simp only
        omega
  · obtain ⟨bounds, hbounds, hfirst, hlast⟩ := p.oldSpan_bounds hfile hfileLog hwithin
    rw [hbounds]
    cases p.timeSpan range with
    | none => exact ⟨bounds, rfl, hfirst, hlast⟩
    | some table =>
      refine ⟨_, rfl, ?_, ?_⟩
      · simp only
        omega
      · simp only
        omega

/-- No time is within a range that ends before it starts. -/
theorem not_within_of_le {range : ℤ × ℤ} {micros : ℤ} (h : range.2 ≤ range.1) :
    ¬within range micros := by
  unfold within
  omega

/-- A Log that a scan reads is in its range. -/
theorem Project.within_of_selected {scan : LogScan} {range : ℤ × ℤ} {log : Log}
    (h : log ∈ newestFirst (p.selected (scan.conditions ch range))) :
    log ∈ p.selected (scan.conditions ch range) ∧ within range log.micros := by
  rw [mem_newestFirst] at h
  refine ⟨h, ?_⟩
  rcases Project.mem_selected.1 h with ⟨-, hcond⟩ | ⟨_, -, -, -, hcond⟩
  all_goals
    simp only [LogScan.conditions, Bool.and_eq_true, decide_eq_true_eq] at hcond
    exact hcond.1.1

/-- A scan reads the Logs of its range after its position. -/
theorem Project.scanLogs_reads {scan : LogScan} (hlimit : 0 < scan.limit) :
    Reads (newestFirst (p.selected (scan.conditions ch scan.range))) scan.range scan.limit
      (p.scanLogs ch scan) := by
  generalize hrange : scan.range = range
  have hnone : (∀ log ∈ newestFirst (p.selected (scan.conditions ch range)), False) →
      Reads (newestFirst (p.selected (scan.conditions ch range))) range scan.limit ⟨[], none⟩ := by
    intro h
    rw [List.eq_nil_iff_forall_not_mem.2 h]
    exact ⟨by simp, fun _ => rfl, nofun, nofun⟩
  unfold Project.scanLogs
  rw [hrange]
  split
  · split
    next hspan =>
      apply hnone
      intro log hlog
      obtain ⟨hselected, hwithin⟩ := Project.within_of_selected hlog
      obtain ⟨bounds, hbounds, -⟩ := Project.span_bounds hselected hwithin
      simp [hspan] at hbounds
    next oldest newest hspan =>
      have hbounds : ∀ log ∈ newestFirst (p.selected (scan.conditions ch range)),
          range.1 / 1000 ≤ log.micros ∧ log.micros < range.2 / 1000 ∧ oldest / 1000 ≤ log.micros ∧
            1000 * log.micros ≤ newest := by
        intro log hlog
        obtain ⟨hselected, hwithin⟩ := Project.within_of_selected hlog
        obtain ⟨bounds, hbounds, hfirst, hlast⟩ := Project.span_bounds hselected hwithin
        rw [hspan] at hbounds
        cases hbounds
        have htime : log.time = 1000 * log.micros := rfl
        simp only at hfirst hlast
        exact ⟨hwithin.1, hwithin.2, by omega, by omega⟩
      apply Project.scanSpans_reads rfl
      · exact le_max_left _ _
      · intro log hlog
        have := hbounds log hlog
        omega
      · exact min_le_left _ _
      · symm
        rw [List.filter_eq_nil_iff]
        intro log hlog
        have := hbounds log hlog
        simp only [decide_eq_true_eq]
        omega
      · exact hlimit
      · rfl
      · omega
  next hrange' =>
    apply hnone
    intro log hlog
    exact not_within_of_le (by omega) (Project.within_of_selected hlog).2

end Spans

section Wanted

variable (ch : ClickHouse) (p : Project)

/-- Whether a Log is in a range and passes a condition. -/
def wants (range : ℤ × ℤ) (filter : Columns → Filter) (cols : Columns) (log : Log) : Bool :=
  within range log.micros && (filter cols).keeps ch log.row

/-- A Project's Logs of a range that pass a condition, newest first. -/
def Project.wanted (range : ℤ × ℤ) (filter : Columns → Filter) : List Log :=
  newestFirst (p.selected (wants ch range filter))

/-- A position where a scan of a range goes on: a whole microsecond that a Log can be stored at, and
with an id, one in the range. -/
def LogPosition.goesOn (range : ℤ × ℤ) (pos : LogPosition) : Prop :=
  pos.time % 1000 = 0 ∧ (firstStorableTime ≤ pos.time ∧ pos.time < endOfStorableTime) ∧
    (pos.id ≠ 0 → pos.time / 1000 < range.2 / 1000)

/-- The Logs that come after a position, if there is one. -/
def afterAll (after : Option LogPosition) (logs : List Log) : List Log :=
  logs.filter fun log => after.all fun pos => pos.before log

variable {ch p}

/-- A scan's conditions hold of the Logs that are wanted and come after its position. -/
theorem conditions_iff {scan : LogScan} {cols : Columns} {log : Log}
    (hstorable : firstStorableTime ≤ log.time ∧ log.time < endOfStorableTime)
    (hafter : ∀ pos, scan.after = some pos → pos.goesOn (scan.fromTime, scan.toTime)) :
    scan.conditions ch scan.range cols log = true ↔
      wants ch (scan.fromTime, scan.toTime) scan.filter cols log = true ∧
        (scan.after.all fun pos => pos.before log) = true := by
  have htime : log.time = 1000 * log.micros := rfl
  have hfirst : firstStorableTime = 0 := rfl
  have hlast : endOfStorableTime = 5661792000000000000 := rfl
  simp only [LogScan.conditions, wants, Bool.and_eq_true, decide_eq_true_eq]
  suffices h : within scan.range log.micros ∧ afterCondition scan.after log = true ↔
      within (scan.fromTime, scan.toTime) log.micros ∧
        (scan.after.all fun pos => pos.before log) = true by
    tauto
  unfold within LogScan.range storableRange endAfter afterCondition
  cases hscan : scan.after with
  | none =>
    simp only [Option.all_none, and_true]
    omega
  | some pos =>
    obtain ⟨haligned, hpos, hin⟩ := hafter pos hscan
    simp only at hin
    simp only [Option.all_some, LogPosition.before, Bool.or_eq_true, Bool.and_eq_true,
      decide_eq_true_eq]
    by_cases hid : pos.id = 0
    · have hnil : BitVec.toNat (0 : UUID) = 0 := rfl
      simp only [hid, if_true, true_or, and_true]
      split <;> omega
    · have := hin hid
      simp only [hid, if_false, false_or]
      split <;> omega

/-- What a scan reads is what is wanted after its position. -/
theorem Project.selected_after {scan : LogScan}
    (hafter : ∀ pos, scan.after = some pos → pos.goesOn (scan.fromTime, scan.toTime)) :
    newestFirst (p.selected (scan.conditions ch scan.range)) =
      afterAll scan.after (p.wanted ch (scan.fromTime, scan.toTime) scan.filter) :=
  p.selected_filter fun _ _ hstorable => conditions_iff hstorable hafter

/-- What is older than a Log after a position is after it too. -/
theorem LogPosition.before_trans {pos : LogPosition} {a b : Log} (h : pos.before a = true)
    (hab : Newer a b) : pos.before b = true := by
  have ha : a.time = 1000 * a.micros := rfl
  have hb : b.time = 1000 * b.micros := rfl
  unfold Newer at hab
  simp only [LogPosition.before, Bool.or_eq_true, Bool.and_eq_true, decide_eq_true_eq] at h ⊢
  omega

/-- The range of a scan that goes on ends within the whole range. -/
theorem endAfter_le {range : ℤ × ℤ} {after : Option LogPosition} {toTime : ℤ}
    (hafter : ∀ pos, after = some pos → pos.goesOn range)
    (hto : toTime = min range.2 endOfStorableTime) : endAfter after toTime ≤ toTime := by
  have hlast : endOfStorableTime = 5661792000000000000 := rfl
  unfold endAfter
  cases after with
  | none => exact le_rfl
  | some pos =>
    obtain ⟨haligned, hpos, hin⟩ := hafter pos rfl
    simp only
    split
    · split
      · omega
      next hid =>
        have := hin hid
        omega
    · exact le_rfl

variable (ch p) in
/-- How much a scan has yet to read after a position: the Logs and the time that are left. -/
def leftToRead (range : ℤ × ℤ) (filter : Columns → Filter) (after : Option LogPosition) : ℕ :=
  (afterAll after (p.wanted ch range filter)).length +
    (endAfter after (storableRange range.1 range.2).2 - (storableRange range.1 range.2).1).toNat

/-- The Logs after a position of a page are all those wanted after it. -/
theorem Project.filter_before {scan : LogScan} {pos : LogPosition}
    (hafter : ∀ pos, scan.after = some pos → pos.goesOn (scan.fromTime, scan.toTime))
    (hpos : (∃ last ∈ afterAll scan.after (p.wanted ch (scan.fromTime, scan.toTime) scan.filter),
        pos = ⟨last.time, last.id⟩) ∨
      pos.id = 0 ∧ pos.time % 1000 = 0 ∧ pos.time < scan.range.2) :
    (afterAll scan.after (p.wanted ch (scan.fromTime, scan.toTime) scan.filter)).filter pos.before =
      afterAll (some pos) (p.wanted ch (scan.fromTime, scan.toTime) scan.filter) := by
  unfold afterAll at hpos ⊢
  rw [List.filter_filter]
  apply List.filter_congr
  intro log _
  simp only [Option.all_some]
  suffices h : pos.before log = true → (scan.after.all fun pos => pos.before log) = true by
    cases hbefore : pos.before log with
    | false => simp
    | true => simp [h hbefore]
  intro hbefore
  cases hscan : scan.after with
  | none => rfl
  | some q =>
    rw [Option.all_some]
    rcases hpos with ⟨last, hlast, rfl⟩ | ⟨hid, haligned, hlt⟩
    · have hq := (List.mem_filter.1 hlast).2
      rw [hscan, Option.all_some] at hq
      exact q.before_trans hq ((before_last_iff last log).1 hbefore)
    · have hqaligned := (hafter q hscan).1
      have hnil : BitVec.toNat (0 : UUID) = 0 := rfl
      have htime : log.time = 1000 * log.micros := rfl
      simp only [LogScan.range, hscan, endAfter] at hlt
      simp only [LogPosition.before, Bool.or_eq_true, Bool.and_eq_true, decide_eq_true_eq,
        hid] at hbefore ⊢
      split at hlt
      · split at hlt <;> omega
      · omega

/-- What is wanted lies in the range and can be stored. -/
theorem Project.mem_wanted {range : ℤ × ℤ} {filter : Columns → Filter} {log : Log}
    (h : log ∈ p.wanted ch range filter) :
    (firstStorableTime ≤ log.time ∧ log.time < endOfStorableTime) ∧ within range log.micros := by
  rw [Project.wanted, mem_newestFirst, Project.mem_selected] at h
  have hstorable := p.storable log
  rw [List.mem_append, List.mem_flatMap] at hstorable
  rcases h with ⟨hlog, hwants⟩ | ⟨file, hfile, -, hlog, hwants⟩
  · simp only [wants, Bool.and_eq_true, decide_eq_true_eq] at hwants
    exact ⟨hstorable (.inl hlog), hwants.1⟩
  · simp only [wants, Bool.and_eq_true, decide_eq_true_eq] at hwants
    exact ⟨hstorable (.inr ⟨file, hfile, hlog⟩), hwants.1⟩

/-- A scan goes on after a Log of its range. -/
theorem last_goesOn {range : ℤ × ℤ} {last : Log}
    (hstorable : firstStorableTime ≤ last.time ∧ last.time < endOfStorableTime)
    (hwithin : within range last.micros) : LogPosition.goesOn range ⟨last.time, last.id⟩ := by
  have htime : last.time = 1000 * last.micros := rfl
  unfold within at hwithin
  refine ⟨?_, hstorable, fun _ => ?_⟩
  · simp only
    omega
  · simp only
    omega

/-- A page of a scan: it holds no more Logs than asked for; there are no others, or where it goes on
come the others, and less is left to read. -/
theorem Project.scanLogs_page {scan : LogScan} (hlimit : 0 < scan.limit)
    (hafter : ∀ pos, scan.after = some pos → pos.goesOn (scan.fromTime, scan.toTime)) :
    (p.scanLogs ch scan).logs.length ≤ scan.limit ∧
    match (p.scanLogs ch scan).next with
    | none => (p.scanLogs ch scan).logs =
        afterAll scan.after (p.wanted ch (scan.fromTime, scan.toTime) scan.filter)
    | some pos => pos.goesOn (scan.fromTime, scan.toTime) ∧
        (p.scanLogs ch scan).logs ++
            afterAll (some pos) (p.wanted ch (scan.fromTime, scan.toTime) scan.filter) =
          afterAll scan.after (p.wanted ch (scan.fromTime, scan.toTime) scan.filter) ∧
        leftToRead ch p (scan.fromTime, scan.toTime) scan.filter (some pos) <
          leftToRead ch p (scan.fromTime, scan.toTime) scan.filter scan.after := by
  have hreads := @Project.scanLogs_reads ch p scan hlimit
  rw [p.selected_after hafter] at hreads
  refine ⟨hreads.length_le, ?_⟩
  split
  next hnext => exact hreads.all_of_none hnext
  next pos hnext =>
    have hrest := hreads.rest_of_some pos hnext
    have hle := @endAfter_le _ _ (storableRange scan.fromTime scan.toTime).2 hafter rfl
    have hlogs : ∀ log ∈ (p.scanLogs ch scan).logs,
        log ∈ afterAll scan.after (p.wanted ch (scan.fromTime, scan.toTime) scan.filter) := by
      intro log hlog
      rw [← hrest]
      exact List.mem_append_left _ hlog
    rw [p.filter_before hafter ((hreads.position pos hnext).imp
      (fun ⟨last, hlast, heq⟩ => ⟨last, hlogs last hlast, heq⟩)
      fun h => ⟨h.1, h.2.1, h.2.2.2⟩)] at hrest
    have hlength := congrArg List.length hrest
    rw [List.length_append] at hlength
    simp only [leftToRead]
    rcases hreads.position pos hnext with ⟨last, hlast, rfl⟩ | ⟨hid, haligned, hfrom, hto⟩
    · -- The page is not empty, and what is left ends no later than it.
      have hlast' := hlogs last hlast
      have hwanted := p.mem_wanted (List.mem_filter.1 hlast').1
      rw [← p.selected_after hafter] at hlast'
      have hwithin := (p.within_of_selected hlast').2
      have hpos := List.length_pos_of_mem hlast
      have hend : endAfter (some ⟨last.time, last.id⟩) (storableRange scan.fromTime scan.toTime).2 ≤
          endAfter scan.after (storableRange scan.fromTime scan.toTime).2 := by
        have htime : last.time = 1000 * last.micros := rfl
        have hrange : last.micros < scan.range.2 / 1000 := hwithin.2
        simp only [LogScan.range] at hrange
        conv => lhs; simp only [endAfter]
        split
        · split <;> omega
        · omega
      exact ⟨last_goesOn hwanted.1 hwanted.2, hrest, by omega⟩
    · -- The time left is shorter.
      simp only [LogScan.range] at hfrom hto
      have hend : endAfter (some pos) (storableRange scan.fromTime scan.toTime).2 = pos.time := by
        simp only [endAfter, hid, if_true]
        exact if_pos (by omega)
      have hstorable : firstStorableTime ≤ pos.time ∧ pos.time < endOfStorableTime := by
        simp only [storableRange] at hfrom hto hle
        omega
      rw [hend]
      exact ⟨⟨haligned, hstorable, fun h => absurd hid h⟩, hrest, by omega⟩

end Wanted

end SolidTrace.LogPages
