import Mathlib.Data.List.Forall2
import SolidTrace.LogTables.ScanSystem

/-!
# The bin cache is invisible

Every bin that is kept, or about to be, holds the rows of its Logs as they are now, as long as the
generations in its key are the present ones and no write has changed those Logs without changing
the generations. A key is read before the query whose rows are kept under it, so a write between
the two leaves the rows under a key that no scan reads again. A scan that no write touches
therefore finds only bins that hold the present rows, and puts together the table of the one query
over its whole range.
-/

namespace SolidTrace.LogTables

open Storage (ProjectID)

variable {Q Rest : Type*} {B : BinnedQueries Q Rest} {s t : System Q Rest}

section Writes

/-- Whether a write may change a Project's Logs of a time. -/
def Write.reaches (w : Write Rest) (project : ProjectID) (τ : ℤ) : Prop :=
  match w with
  | .insert p logs _ _ => p = project ∧ ∃ log ∈ logs, log.time = τ
  | .drop days _ _ => ∃ d ∈ days, d.project = project ∧ d.holds τ

/-- Whether a write may have changed a Project's Logs of a time, and has yet to change the
generation of its hour. -/
def Write.unbumped (w : Write Rest) (project : ProjectID) (τ : ℤ) : Prop :=
  match w with
  | .insert p logs _ bumped => bumped = false ∧ p = project ∧ ∃ log ∈ logs, log.time = τ
  | .drop _ _ touched => ∃ d ∈ touched, d.project = project ∧ d.holds τ

/-- The days a deletion has left are its own. -/
def Write.WellFormed : Write Rest → Prop
  | .insert _ _ _ _ => True
  | .drop days todo touched => todo ⊆ days ∧ touched ⊆ days

/-- What a write has yet to bump is among what it may change. -/
theorem Write.unbumped.reaches {w : Write Rest} {project : ProjectID} {τ : ℤ}
    (hw : w.WellFormed) (h : w.unbumped project τ) : w.reaches project τ := by
  cases w with
  | insert p logs taken bumped => exact h.2
  | drop days todo touched =>
    obtain ⟨d, hd, hholds⟩ := h
    exact ⟨d, hw.2 hd, hholds⟩

/-- A write that does not touch a range changes none of its times. -/
theorem Write.not_reaches_of_touches {w : Write Rest} {project : ProjectID} {range : ℤ × ℤ} {τ : ℤ}
    (h : w.touches project range = false) (hfrom : range.1 ≤ τ) (hto : τ < range.2) :
    ¬ w.reaches project τ := by
  intro hreaches
  have htouches : w.touches project range = true := by
    cases w with
    | insert p logs taken bumped =>
      obtain ⟨hp, log, hlog, rfl⟩ := hreaches
      simp only [Write.touches, Bool.and_eq_true, decide_eq_true_eq, List.any_eq_true]
      exact ⟨hp, log, hlog, hfrom, hto⟩
    | drop days todo touched =>
      obtain ⟨d, hd, hp, hholds⟩ := hreaches
      simp only [Write.touches, Bool.and_eq_true, decide_eq_true_eq, List.any_eq_true]
      exact ⟨d, hd, ⟨hp, by have := hholds.1; omega⟩, by have := hholds.2; omega⟩
  rw [h] at htouches
  simp at htouches

/-- No write has changed the Logs of a time without changing the generation of its hour. -/
def System.quietAt (s : System Q Rest) (project : ProjectID) (τ : ℤ) : Prop :=
  ∀ w ∈ s.writes, ¬ w.unbumped project τ

/-- What a step of a write, or of a scan, does to the Logs and the generations. -/
structure WorldStep (s t : System Q Rest) : Prop where
  generations_le : s.generations ≤ t.generations
  /-- Logs change only at a time that a write reaches, and before the generation of its hour. -/
  logs_eq : ∀ project (p : ℤ → Bool),
    (∀ τ, p τ → ∀ w ∈ s.writes, w.reaches project τ → t.quietAt project τ) →
    (t.projectLogs project).filter (fun log => p log.time) =
      (s.projectLogs project).filter fun log => p log.time
  /-- A time becomes quiet only as the generation of its hour changes. -/
  quiet : ∀ project τ, t.quietAt project τ → s.quietAt project τ ∨
    s.generations ⟨project, truncateHour τ⟩ < t.generations ⟨project, truncateHour τ⟩

/-- Replacing an element leaves every other one. -/
theorem eq_or_mem_set {α : Type*} {l : List α} {i : ℕ} {x y z : α} (hx : l[i]? = some x)
    (hz : z ∈ l) : z = x ∨ z ∈ l.set i y := by
  obtain ⟨j, hj⟩ := List.mem_iff_getElem?.mp hz
  by_cases hij : i = j
  · subst hij
    rw [hx] at hj
    exact Or.inl (Option.some.inj hj).symm
  · refine Or.inr (List.mem_iff_getElem?.mpr ⟨j, ?_⟩)
    rw [List.getElem?_set_ne hij]
    exact hj

/-- Erasing an element leaves every other one. -/
theorem eq_or_mem_eraseIdx {α : Type*} {l : List α} {i : ℕ} {x z : α} (hx : l[i]? = some x)
    (hz : z ∈ l) : z = x ∨ z ∈ l.eraseIdx i := by
  obtain ⟨j, hj⟩ := List.mem_iff_getElem?.mp hz
  by_cases hij : j = i
  · subst hij
    rw [hx] at hj
    exact Or.inl (Option.some.inj hj).symm
  · exact Or.inr (List.mem_eraseIdx_iff_getElem?.mpr ⟨j, hij, hj⟩)

/-- A step that leaves the Logs, the generations and the writes. -/
theorem WorldStep.of_eq (hlogs : t.logs = s.logs) (hgenerations : t.generations = s.generations)
    (hwrites : s.writes ⊆ t.writes) : WorldStep s t where
  generations_le := by rw [hgenerations]
  logs_eq project p _ := by rw [System.projectLogs, System.projectLogs, hlogs]
  quiet project τ h := Or.inl fun w hw => h w (hwrites hw)

/-- What replaces an element is in the list. -/
theorem mem_set_self {α : Type*} {l : List α} {i : ℕ} {x : α} (hx : l[i]? = some x) (y : α) :
    y ∈ l.set i y := by
  obtain ⟨hi, -⟩ := List.getElem?_eq_some_iff.mp hx
  exact List.mem_iff_getElem?.mpr ⟨i, List.getElem?_set_self hi⟩

section Step

variable {i : ℕ} {w w' : Write Rest} (hw : s.writes[i]? = some w)

include hw

/-- A write moves on: what it has changed and not yet bumped stays so, unless it bumps it now. -/
theorem WorldStep.setWrite (hwrites : t.writes = s.writes.set i w')
    (hle : s.generations ≤ t.generations)
    (hlogs : ∀ project (p : ℤ → Bool),
      (∀ τ, p τ → w.reaches project τ → ¬ w'.unbumped project τ) →
      (t.projectLogs project).filter (fun log => p log.time) =
        (s.projectLogs project).filter fun log => p log.time)
    (hunbumped : ∀ project τ, w.unbumped project τ → w'.unbumped project τ ∨
      s.generations ⟨project, truncateHour τ⟩ < t.generations ⟨project, truncateHour τ⟩) :
    WorldStep s t where
  generations_le := hle
  logs_eq project p h := by
    refine hlogs project p fun τ hτ hreaches => ?_
    refine h τ hτ w (List.mem_of_getElem? hw) hreaches w' ?_
    rw [hwrites]
    exact mem_set_self hw w'
  quiet project τ h := by
    by_cases hlt : s.generations ⟨project, truncateHour τ⟩ < t.generations ⟨project, truncateHour τ⟩
    · exact Or.inr hlt
    · refine Or.inl fun v hv hun => ?_
      rw [System.quietAt, hwrites] at h
      rcases eq_or_mem_set hw hv with rfl | hmem
      · rcases hunbumped project τ hun with hun | hlt'
        · exact h w' (mem_set_self hw w') hun
        · exact hlt hlt'
      · exact h v hmem hun

/-- A write returns once it has bumped all that it changed. -/
theorem WorldStep.eraseWrite (hwrites : t.writes = s.writes.eraseIdx i) (hlogs : t.logs = s.logs)
    (hgenerations : t.generations = s.generations) (hunbumped : ∀ project τ, ¬ w.unbumped project τ) :
    WorldStep s t where
  generations_le := by rw [hgenerations]
  logs_eq project p _ := by rw [System.projectLogs, System.projectLogs, hlogs]
  quiet project τ h := by
    refine Or.inl fun v hv hun => ?_
    rcases eq_or_mem_eraseIdx hw hv with rfl | hmem
    · exact hunbumped project τ hun
    · exact h v (hwrites ▸ hmem) hun

end Step

section Steps

variable {i : ℕ} {project : ProjectID} {logs : List (Log Rest)} {taken : Bool}
  {days todo touched : List ProjectDay} {d : ProjectDay}

variable (s project logs) in
/-- Logs added for a Project are added to its Logs, and no other's. -/
theorem projectLogs_append (q : ProjectID) :
    System.projectLogs { s with logs := s.logs ++ logs.map fun log => ⟨project, log⟩ } q =
      s.projectLogs q ++ if project = q then logs else [] := by
  rw [System.projectLogs, System.projectLogs, List.filter_append, List.map_append]
  congr 1
  by_cases hp : project = q
  · simp [hp, List.filter_map, Function.comp_def]
  · simp [hp, List.filter_map, Function.comp_def]

/-- Storing the Logs of an insert changes only hours that it has yet to bump. -/
theorem worldStep_takeLogs (hw : s.writes[i]? = some (.insert project logs false false)) :
    WorldStep s { s with
      logs := s.logs ++ logs.map fun log => ⟨project, log⟩
      writes := s.writes.set i (.insert project logs true false) } := by
  refine WorldStep.setWrite hw rfl le_rfl ?_ fun q τ h => Or.inl h
  intro q p hp
  have happend := projectLogs_append s project logs q
  simp only [System.projectLogs] at happend ⊢
  rw [happend, List.filter_append]
  split
  · rename_i hq
    -- a Log just taken is one whose hour is still to be bumped
    have hnone : logs.filter (fun log => p log.time) = [] := by
      refine List.filter_eq_nil_iff.mpr fun log hlog hpos => ?_
      exact hp log.time hpos ⟨hq, log, hlog, rfl⟩ ⟨rfl, hq, log, hlog, rfl⟩
    rw [hnone, List.append_nil]
  · simp

/-- Bumping the hours of an insert raises generations only. -/
theorem worldStep_bumpInsert (hw : s.writes[i]? = some (.insert project logs taken false)) :
    WorldStep s { s with
      generations := bump s.generations project logs
      writes := s.writes.set i (.insert project logs taken true) } := by
  refine WorldStep.setWrite hw rfl (le_bump _ _ _) (fun q p _ => rfl) fun q τ h => Or.inr ?_
  obtain ⟨-, rfl, log, hlog, rfl⟩ := h
  exact lt_bump _ _ hlog

/-- Dropping the next day changes only that day, which is yet to bump. -/
theorem worldStep_dropNext {goes ok : Bool}
    (hw : s.writes[i]? = some (.drop days (d :: todo) touched)) (hday : d ∈ days) :
    WorldStep s { s with
      logs := if goes then withoutDay d s.logs else s.logs
      writes := s.writes.set i (.drop days (if ok then todo else []) (touched.insert d)) } := by
  refine WorldStep.setWrite hw rfl le_rfl ?_ fun q τ h => ?_
  · intro q p hp
    cases goes
    · rfl
    · simp only [if_true, System.projectLogs, withoutDay, List.filter_map, List.filter_filter]
      congr 1
      refine List.filter_congr fun stored _ => ?_
      by_cases hpos : p stored.log.time
      · by_cases hq : stored.project = q
        · subst hq
          -- a Log that goes is of a day still to be bumped
          have hout : ¬ (stored.project = d.project ∧ d.holds stored.log.time) := by
            intro hin
            have hd : d.project = stored.project := hin.1.symm
            exact hp _ hpos ⟨d, hday, hd, hin.2⟩ ⟨d, List.mem_insert_self, hd, hin.2⟩
          simp only [hpos, hout, not_false_iff, decide_true, Function.comp_apply, Bool.and_self]
        · simp [hq]
      · simp [hpos]
  · obtain ⟨d', hd', hholds⟩ := h
    exact Or.inl ⟨d', List.mem_insert_of_mem hd', hholds⟩

/-- Bumping the days of a drop raises generations only. -/
theorem worldStep_bumpDay (hw : s.writes[i]? = some (.drop days [] touched)) :
    WorldStep s { s with
      generations := bumpDay s.generations d.project d.start
      writes := s.writes.set i (.drop days [] (touched.erase d)) } := by
  refine WorldStep.setWrite hw rfl (le_bumpDay _ _ _) (fun q p _ => rfl) fun q τ h => ?_
  obtain ⟨d', hd', rfl, hholds⟩ := h
  by_cases heq : d' = d
  · subst heq
    exact Or.inr (lt_bumpDay _ _ (Dvd.dvd.trans (Dvd.intro_left 24 rfl) d'.whole) hholds.1 hholds.2)
  · exact Or.inl ⟨d', (List.mem_erase_of_ne heq).mpr hd', rfl, hholds⟩

end Steps

end Writes

section Fresh

/-- The generations of a key's hours now. -/
def System.generationsNow (s : System Q Rest) (key : BinKey) : List ℕ :=
  generationsOf s.generations key.project key.start (key.start + key.size)

/-- The generations of a key were read at some time up to now. -/
def KeyOld (s : System Q Rest) (key : BinKey) : Prop :=
  List.Forall₂ (· ≤ ·) key.generations (s.generationsNow key)

/-- A key of a bin that lies in a Query's range. -/
structure KeyOf (B : BinnedQueries Q Rest) (q : Q) (key : BinKey) : Prop where
  query_eq : key.query = B.key q
  size_eq : key.size = B.size q
  dvd : key.size ∣ key.start
  from_le : B.fromTime q ≤ key.start
  le_to : key.start + key.size ≤ B.toTime q

/-- A bin holds the rows of its Logs, unless its key is out of date or its Logs are being
changed. -/
def Fresh (B : BinnedQueries Q Rest) (s : System Q Rest) (key : BinKey) (rows : List Row) : Prop :=
  ∀ q, KeyOf B q key → key.generations = s.generationsNow key →
    (∀ τ, key.start ≤ τ → τ < key.start + key.size → s.quietAt key.project τ) →
    rows = binRows B q key.start (s.projectLogs key.project)

/-- A bin holds the rows of its Logs now. -/
def Computed (B : BinnedQueries Q Rest) (s : System Q Rest) (key : BinKey) (rows : List Row) : Prop :=
  ∃ q, KeyOf B q key ∧ rows = binRows B q key.start (s.projectLogs key.project)

/-- A key is old when each of its hours had its generation by now. -/
theorem keyOld_iff {key : BinKey} : KeyOld s key ↔
    List.Forall₂ (fun n h => n ≤ s.generations ⟨key.project, h⟩) key.generations
      (hoursFrom (truncateHour key.start) (key.start + key.size)) := by
  rw [KeyOld, System.generationsNow, generationsOf, List.forall₂_map_right_iff]

/-- A key that is old stays old as generations rise. -/
theorem KeyOld.mono {key : BinKey} (h : KeyOld s key) (hle : s.generations ≤ t.generations) :
    KeyOld t key :=
  keyOld_iff.mpr ((keyOld_iff.mp h).imp fun _ _ hn => hn.trans (hle _))

/-- A key with the generations of a later state has those of every state in between. -/
theorem KeyOld.le_of_eq {key : BinKey} (h : KeyOld s key)
    (heq : key.generations = t.generationsNow key) :
    ∀ h ∈ hoursFrom (truncateHour key.start) (key.start + key.size),
      t.generations ⟨key.project, h⟩ ≤ s.generations ⟨key.project, h⟩ := by
  have hall := keyOld_iff.mp h
  rw [heq, System.generationsNow, generationsOf, List.forall₂_map_left_iff, List.forall₂_same] at hall
  exact hall

/-- An old key with the generations of now had them all along. -/
theorem KeyOld.eq_of_eq {key : BinKey} (h : KeyOld s key) (hle : s.generations ≤ t.generations)
    (heq : key.generations = t.generationsNow key) : key.generations = s.generationsNow key := by
  rw [heq]
  exact List.map_congr_left fun g hg => le_antisymm (h.le_of_eq heq g hg) (hle _)

/-- A bin's rows depend on the Logs in it only. -/
theorem binRows_congr {q : Q} {start : ℤ} {logs logs' : List (Log Rest)}
    (h : logsOfBin (B.size q) start logs = logsOfBin (B.size q) start logs') :
    binRows B q start logs = binRows B q start logs' := by rw [binRows, binRows, h]

/-- A bin stays fresh: a step that changes its Logs leaves them unbumped, and the bump makes its
key out of date for good. -/
theorem Fresh.step {key : BinKey} {rows : List Row} (h : Fresh B s key rows) (hold : KeyOld s key)
    (hstep : WorldStep s t) : Fresh B t key rows := by
  intro q hq heq hquiet
  have hsize : 0 < key.size := hq.size_eq ▸ B.size_pos q
  have hquiet' : ∀ τ, key.start ≤ τ → τ < key.start + key.size → s.quietAt key.project τ := by
    intro τ hfrom hto
    rcases hstep.quiet _ _ (hquiet τ hfrom hto) with hq | hlt
    · exact hq
    · have hle := hold.le_of_eq heq _ (truncateHour_mem_hoursFrom hfrom hto)
      omega
  rw [h q hq (hold.eq_of_eq hstep.generations_le heq) hquiet']
  refine binRows_congr (hstep.logs_eq key.project (fun τ => binStart τ (B.size q) = key.start) ?_).symm
  intro τ hτ _ _ _
  have hin := (binStart_eq_iff (hq.size_eq ▸ hsize) (hq.size_eq ▸ hq.dvd)).mp (by simpa using hτ)
  exact hquiet τ hin.1 (hq.size_eq ▸ hin.2)

/-- What one Query worked out for a bin is what any other of the same key would. -/
theorem Computed.eq_binRows {key : BinKey} {rows : List Row} (h : Computed B s key rows) {q : Q}
    (hq : KeyOf B q key) : rows = binRows B q key.start (s.projectLogs key.project) := by
  obtain ⟨q', hq', rfl⟩ := h
  have hsize : B.size q' = B.size q := hq'.size_eq.symm.trans hq.size_eq
  rw [binRows, binRows, hsize]
  refine B.rows_whole q' q key.start _ (hq'.query_eq.symm.trans hq.query_eq) hsize hq'.from_le
    (hq'.size_eq ▸ hq'.le_to) hq.from_le (hq'.size_eq ▸ hq.le_to) fun log hlog => ?_
  rw [hsize]
  simpa using List.of_mem_filter hlog

/-- Rows that were computed for a key are fresh. -/
theorem Computed.fresh {key : BinKey} {rows : List Row} (h : Computed B s key rows) :
    Fresh B s key rows := fun _ hq _ _ => h.eq_binRows hq

end Fresh

namespace ScanPhase

/-- The bins read. -/
def bins : ScanPhase → List TimeBin
  | .reading bins _ => bins
  | .looking bins _ _ => bins
  | .querying bins => bins
  | _ => []

/-- The keys read. -/
def keys : ScanPhase → List BinKey
  | .reading bins _ => bins.map TimeBin.key
  | .looking bins _ key => key :: bins.map TimeBin.key
  | .querying bins => bins.map TimeBin.key
  | _ => []

/-- The start of the bin that comes next. -/
def next : ScanPhase → Option ℤ
  | .reading _ start => some start
  | .looking _ start _ => some start
  | _ => none

/-- The bins still to be kept. -/
def kept : ScanPhase → List (BinKey × List Row)
  | .putting kept _ => kept
  | _ => []

/-- The table it has worked out. -/
def table : ScanPhase → Option (List Row)
  | .putting _ table => some table
  | .returned table => some table
  | _ => none

end ScanPhase

/-- The bins in the cache, or about to be put there. -/
def System.atLarge (s : System Q Rest) (key : BinKey) (rows : List Row) : Prop :=
  s.cache.holds key rows ∨ ∃ sc ∈ s.scans, (key, rows) ∈ sc.phase.kept

/-- A key that a scan has read. -/
structure KeyRead (B : BinnedQueries Q Rest) (s : System Q Rest) (scan : TableScan Q) (key : BinKey) :
    Prop extends KeyOf B scan.query key where
  project_eq : key.project = scan.project
  range_le : (scanRange B scan).1 ≤ key.start
  le_range : key.start + key.size ≤ (scanRange B scan).2
  old : KeyOld s key

/-- What holds of a scan that no write has touched. -/
structure QuietScan (B : BinnedQueries Q Rest) (s : System Q Rest) (scan : TableScan Q)
    (phase : ScanPhase) : Prop where
  untouched : ∀ w ∈ s.writes, ∀ τ, (scanRange B scan).1 ≤ τ → τ < (scanRange B scan).2 →
    ¬ w.reaches scan.project τ
  /-- Whatever it may yet find under a key it has read is what the bin's Logs give. -/
  keys : ∀ key ∈ phase.keys, ∀ rows, s.atLarge key rows →
    rows = binRows B scan.query key.start (s.projectLogs scan.project)
  hits : ∀ bin ∈ phase.bins, bin.hit →
    bin.rows = binRows B scan.query bin.start (s.projectLogs scan.project)
  table : ∀ table, phase.table = some table → table = oneQuery B scan (s.projectLogs scan.project)

/-- What holds of a scan. -/
structure ScanInv (B : BinnedQueries Q Rest) (s : System Q Rest) (scan : TableScan Q)
    (phase : ScanPhase) : Prop where
  binsIn : BinsIn (B.size scan.query) (scanRange B scan) phase.bins
  keys : ∀ key ∈ phase.keys, KeyRead B s scan key
  bin_key : ∀ bin ∈ phase.bins, bin.key ∈ phase.keys ∧ bin.key.start = bin.start
  next : ∀ start, phase.next = some start → B.size scan.query ∣ start ∧
    (scanRange B scan).1 ≤ start ∧ ∀ bin ∈ phase.bins, bin.start + B.size scan.query ≤ start
  looking : ∀ bins start key, phase = .looking bins start key → key.start = start
  notBad : phase ≠ .badRow

/-- The invariant of every run. -/
structure Inv (B : BinnedQueries Q Rest) (s : System Q Rest) : Prop where
  writes : ∀ w ∈ s.writes, w.WellFormed
  atLarge : ∀ key rows, s.atLarge key rows → KeyOld s key ∧ Fresh B s key rows
  scans : ∀ sc ∈ s.scans, ScanInv B s sc.scan sc.phase
  quiet : ∀ sc ∈ s.scans, sc.disturbed = false → QuietScan B s sc.scan sc.phase

/-- A start without writes, scans and entries satisfies the invariant. -/
theorem inv_start (logs : List (StoredLog Rest)) (maxBytes : ℤ) :
    Inv B (System.start logs maxBytes : System Q Rest) where
  writes w hw := by simp [System.start] at hw
  atLarge key rows h := by simp [System.start, System.atLarge, BinCache.holds, BinCache.new] at h
  scans sc hsc := by simp [System.start] at hsc
  quiet sc hsc := by simp [System.start] at hsc

section Steps

/-- A key that was read stays read as generations rise. -/
theorem KeyRead.mono {scan : TableScan Q} {key : BinKey} (h : KeyRead B s scan key)
    (hle : s.generations ≤ t.generations) : KeyRead B t scan key :=
  { h with old := h.old.mono hle }

/-- A scan keeps what it has read as generations rise. -/
theorem ScanInv.mono {scan : TableScan Q} {phase : ScanPhase} (h : ScanInv B s scan phase)
    (hle : s.generations ≤ t.generations) : ScanInv B t scan phase :=
  { h with keys := fun key hkey => (h.keys key hkey).mono hle }

/-- A range that no write touches keeps its Logs. -/
theorem QuietScan.logs_eq {scan : TableScan Q} {phase : ScanPhase} (h : QuietScan B s scan phase)
    (hstep : WorldStep s t) :
    logsIn [scanRange B scan] (t.projectLogs scan.project) =
      logsIn [scanRange B scan] (s.projectLogs scan.project) := by
  have := hstep.logs_eq scan.project
    (fun τ => (scanRange B scan).1 ≤ τ && τ < (scanRange B scan).2) fun τ hτ w hw hreaches => by
      simp only [Bool.and_eq_true, decide_eq_true_eq] at hτ
      exact absurd hreaches (h.untouched w hw τ hτ.1 hτ.2)
  simpa [logsIn] using this

/-- So does each of its bins. -/
theorem QuietScan.binRows_eq {scan : TableScan Q} {phase : ScanPhase} (h : QuietScan B s scan phase)
    (hstep : WorldStep s t) {start : ℤ} (hdvd : B.size scan.query ∣ start)
    (hfrom : (scanRange B scan).1 ≤ start)
    (hto : start + B.size scan.query ≤ (scanRange B scan).2) :
    binRows B scan.query start (t.projectLogs scan.project) =
      binRows B scan.query start (s.projectLogs scan.project) := by
  have hsize := B.size_pos scan.query
  refine binRows_congr ?_
  rw [← logsOfBin_logsIn hsize hdvd hfrom hto, h.logs_eq hstep, logsOfBin_logsIn hsize hdvd hfrom hto]

/-- A step of a write keeps the invariant. -/
theorem Inv.world (hinv : Inv B s) (hstep : WorldStep s t) (hwrites : ∀ w ∈ t.writes, w.WellFormed)
    (hcache : t.cache = s.cache)
    (hscans : ∀ sc' ∈ t.scans, ∃ sc ∈ s.scans, sc'.scan = sc.scan ∧ sc'.phase = sc.phase ∧
      (sc'.disturbed = false → sc.disturbed = false ∧ ∀ w ∈ t.writes, ∀ τ,
        (scanRange B sc.scan).1 ≤ τ → τ < (scanRange B sc.scan).2 → ¬ w.reaches sc.scan.project τ)) :
    Inv B t := by
  have hlarge : ∀ key rows, t.atLarge key rows → s.atLarge key rows := by
    intro key rows h
    rcases h with h | ⟨sc', hsc', hkept⟩
    · exact Or.inl (hcache ▸ h)
    · obtain ⟨sc, hsc, -, hphase, -⟩ := hscans sc' hsc'
      exact Or.inr ⟨sc, hsc, hphase ▸ hkept⟩
  refine ⟨hwrites, fun key rows h => ?_, fun sc' hsc' => ?_, fun sc' hsc' hquiet => ?_⟩
  · obtain ⟨hold, hfresh⟩ := hinv.atLarge key rows (hlarge key rows h)
    exact ⟨hold.mono hstep.generations_le, hfresh.step hold hstep⟩
  · obtain ⟨sc, hsc, hscan, hphase, -⟩ := hscans sc' hsc'
    rw [hscan, hphase]
    exact (hinv.scans sc hsc).mono hstep.generations_le
  · obtain ⟨sc, hsc, hscan, hphase, hdisturbed⟩ := hscans sc' hsc'
    obtain ⟨hquiet, huntouched⟩ := hdisturbed hquiet
    have hq := hinv.quiet sc hsc hquiet
    have hsc := hinv.scans sc hsc
    rw [hscan, hphase]
    refine ⟨huntouched, fun key hkey rows h => ?_, fun bin hbin hhit => ?_, fun table htable => ?_⟩
    · have hread := hsc.keys key hkey
      rw [hq.keys key hkey rows (hlarge key rows h), hq.binRows_eq hstep
        (hread.size_eq ▸ hread.dvd) hread.range_le (hread.size_eq ▸ hread.le_range)]
    · rw [hq.hits bin hbin hhit, hq.binRows_eq hstep (hsc.binsIn.dvd bin hbin)
        (hsc.binsIn.from_le bin hbin) (hsc.binsIn.le_to bin hbin)]
    · rw [hq.table table htable, oneQuery, oneQuery, queryTable, queryTable, hq.logs_eq hstep]

/-- A step of a scan keeps the invariant: it adds to the bins at large only what it has just
worked out. -/
theorem Inv.setPhase (hinv : Inv B s) {i : ℕ} {sc : Scan Q}
    {next : ScanPhase × BinCache} (hcache : ∀ key rows, next.2.holds key rows → s.atLarge key rows)
    (hkept : ∀ key rows, (key, rows) ∈ next.1.kept →
      s.atLarge key rows ∨ (KeyOld s key ∧ Computed B s key rows))
    (hscan : ScanInv B s sc.scan next.1)
    (hquiet : sc.disturbed = false → QuietScan B s sc.scan next.1) : Inv B (s.setPhase i sc next) := by
  have hlarge : ∀ key rows, (s.setPhase i sc next).atLarge key rows →
      s.atLarge key rows ∨ (KeyOld s key ∧ Computed B s key rows) := by
    intro key rows h
    rcases h with h | ⟨sc', hsc', hkept'⟩
    · exact Or.inl (hcache key rows h)
    · rcases List.mem_or_eq_of_mem_set hsc' with hold | rfl
      · exact Or.inl (Or.inr ⟨sc', hold, hkept'⟩)
      · exact hkept key rows hkept'
  -- what a scan may find under its keys is still what the bins' Logs give
  have hmove : ∀ {scan : TableScan Q} {phase : ScanPhase}, ScanInv B s scan phase →
      QuietScan B s scan phase → QuietScan B (s.setPhase i sc next) scan phase := by
    intro scan phase hinv' hq
    refine ⟨hq.untouched, fun key hkey rows h => ?_, hq.hits, hq.table⟩
    rcases hlarge key rows h with h | ⟨-, h⟩
    · exact hq.keys key hkey rows h
    · have hread := hinv'.keys key hkey
      rw [h.eq_binRows hread.toKeyOf, hread.project_eq]
      rfl
  refine ⟨hinv.writes, fun key rows h => ?_, fun sc' hsc' => ?_, fun sc' hsc' hd => ?_⟩
  · rcases hlarge key rows h with h | ⟨hold, h⟩
    · exact hinv.atLarge key rows h
    · exact ⟨hold, h.fresh⟩
  · rcases List.mem_or_eq_of_mem_set hsc' with hold | rfl
    · exact (hinv.scans sc' hold).mono le_rfl
    · exact hscan.mono le_rfl
  · rcases List.mem_or_eq_of_mem_set hsc' with hold | rfl
    · exact hmove (hinv.scans sc' hold) (hinv.quiet sc' hold hd)
    · exact hmove hscan (hquiet hd)

/-- A range that has a bin in it is the part of the Query's that can be stored. -/
theorem scanRange_subset {scan : TableScan Q} {start : ℤ} (hfrom : (scanRange B scan).1 ≤ start)
    (hto : start + B.size scan.query ≤ (scanRange B scan).2) :
    B.fromTime scan.query ≤ start ∧ start + B.size scan.query ≤ B.toTime scan.query := by
  have hsize := B.size_pos scan.query
  unfold scanRange at hfrom hto
  simp only at hfrom hto
  split at hto
  · omega
  · omega

section Phases

variable {scan : TableScan Q} {bins : List TimeBin} {start : ℤ} {key : BinKey}

/-- Reading the key of the next bin. -/
theorem ScanInv.readKey (h : ScanInv B s scan (.reading bins start)) :
    ScanInv B s scan (System.readKey B s.generations scan bins start) := by
  obtain ⟨hdvd, hfrom, hbefore⟩ := h.next start rfl
  unfold System.readKey
  simp only
  split
  · rename_i hin
    obtain ⟨hqfrom, hqto⟩ := scanRange_subset hfrom hin.1
    refine ⟨h.binsIn, fun key hkey => ?_, fun bin hbin => ?_, fun next hnext => ?_, ?_, nofun⟩
    · rcases List.mem_cons.mp hkey with rfl | hkey
      · exact ⟨⟨rfl, rfl, hdvd, hqfrom, hqto⟩, rfl, hfrom, hin.1, List.forall₂_refl _⟩
      · exact h.keys key hkey
    · exact ⟨List.mem_cons_of_mem _ (h.bin_key bin hbin).1, (h.bin_key bin hbin).2⟩
    · obtain rfl : start = next := Option.some.inj hnext
      exact ⟨hdvd, hfrom, hbefore⟩
    · intro _ _ _ heq
      cases heq
      rfl
  · exact ⟨h.binsIn, h.keys, h.bin_key, nofun, nofun, nofun⟩

/-- What is kept under a key with the present generations is what the bin's Logs give, since no
write is changing them. -/
theorem QuietScan.readKey (hinv : Inv B s) (h : ScanInv B s scan (.reading bins start))
    (hq : QuietScan B s scan (.reading bins start)) :
    QuietScan B s scan (System.readKey B s.generations scan bins start) := by
  have hnext := h.readKey
  unfold System.readKey at hnext ⊢
  simp only at hnext ⊢
  split
  · rename_i hin
    rw [if_pos hin] at hnext
    refine ⟨hq.untouched, fun key hkey rows hlarge => ?_, hq.hits, nofun⟩
    rcases List.mem_cons.mp hkey with rfl | hkey
    · have hread := hnext.keys _ List.mem_cons_self
      obtain ⟨-, hfresh⟩ := hinv.atLarge _ rows hlarge
      refine hfresh scan.query hread.toKeyOf rfl fun τ hfrom hto w hw hun => ?_
      exact hq.untouched w hw τ (hread.range_le.trans hfrom) (hto.trans_le hread.le_range)
        (hun.reaches (hinv.writes w hw))
    · exact hq.keys key hkey rows hlarge
  · exact ⟨hq.untouched, hq.keys, hq.hits, nofun⟩

/-- Looking a bin up adds it to the bins read. -/
theorem ScanInv.lookUp (h : ScanInv B s scan (.looking bins start key)) (rows : List Row)
    (hit : Bool) :
    ScanInv B s scan (.reading (bins ++ [⟨start, start + B.size scan.query, key, rows, hit⟩])
      (start + B.size scan.query)) := by
  obtain ⟨hdvd, hfrom, hbefore⟩ := h.next start rfl
  have hsize := B.size_pos scan.query
  have hstart : key.start = start := h.looking _ _ _ rfl
  have hread := h.keys key List.mem_cons_self
  have hto : start + B.size scan.query ≤ (scanRange B scan).2 := by
    have := hread.le_range
    rwa [hread.size_eq, hstart] at this
  refine ⟨⟨?_, ?_, ?_, ?_, ?_⟩, fun k hk => ?_, ?_, fun next hnext => ?_, nofun, nofun⟩
  · exact List.forall_mem_append.mpr ⟨h.binsIn.dvd, by simpa using hdvd⟩
  · exact List.forall_mem_append.mpr ⟨h.binsIn.stop_eq, by simp⟩
  · exact List.forall_mem_append.mpr ⟨h.binsIn.from_le, by simpa using hfrom⟩
  · exact List.forall_mem_append.mpr ⟨h.binsIn.le_to, by simpa using hto⟩
  · refine List.pairwise_append.mpr ⟨h.binsIn.increasing, by simp, fun bin hbin b hb => ?_⟩
    obtain rfl := List.mem_singleton.mp hb
    exact hbefore bin hbin
  · refine h.keys k ?_
    simp only [ScanPhase.keys, List.map_append, List.mem_append, List.map_cons, List.map_nil,
      List.mem_cons] at hk ⊢
    tauto
  · intro bin hbin
    refine ⟨List.mem_map.mpr ⟨bin, hbin, rfl⟩, ?_⟩
    rcases List.mem_append.mp hbin with hold | hnew
    · exact (h.bin_key bin hold).2
    · obtain rfl := List.mem_singleton.mp hnew
      exact hstart
  · obtain rfl : start + B.size scan.query = next := Option.some.inj hnext
    refine ⟨Int.dvd_add hdvd dvd_rfl, by omega, ?_⟩
    exact List.forall_mem_append.mpr
      ⟨fun bin hbin => by have := hbefore bin hbin; omega, by simp⟩

/-- A quiet scan that looks a key up stays quiet, hit or miss. -/
theorem QuietScan.lookUp (h : ScanInv B s scan (.looking bins start key))
    (hq : QuietScan B s scan (.looking bins start key)) :
    QuietScan B s scan (.reading (bins ++ [⟨start, start + B.size scan.query, key,
      (s.cache.get key).1.getD [], (s.cache.get key).1.isSome⟩]) (start + B.size scan.query)) := by
  refine ⟨hq.untouched, fun k hk rows hlarge => hq.keys k ?_ rows hlarge, fun bin hbin hhit => ?_,
    nofun⟩
  · simp only [ScanPhase.keys, List.map_append, List.mem_append, List.map_cons, List.map_nil,
      List.mem_cons] at hk ⊢
    tauto
  · rcases List.mem_append.mp hbin with hold | hnew
    · exact hq.hits bin hold hhit
    · obtain rfl := List.mem_singleton.mp hnew
      obtain ⟨rows, hrows⟩ := Option.isSome_iff_exists.mp hhit
      simp only [hrows, Option.getD_some]
      rw [hq.keys key List.mem_cons_self rows (Or.inl (BinCache.holds_of_get hrows)),
        h.looking _ _ _ rfl]

/-- Without spans to query there are no rows. -/
theorem queryTable_of_isEmpty {spans : List (ℤ × ℤ)} (logs : List (Log Rest)) :
    (if spans.isEmpty then [] else queryTable B scan spans logs) = queryTable B scan spans logs := by
  cases spans with
  | nil => simp [queryTable, logsIn, rows_nil]
  | cons span spans => rfl

/-- A scan without bins to query returns what one Query gives. -/
theorem runQuery_nil (logs : List (Log Rest)) :
    System.runQuery B logs scan [] = .returned (oneQuery B scan logs) := rfl

/-- A scan's query always leaves it with a table. -/
theorem runQuery_cons (logs : List (Log Rest)) (hbins : bins ≠ []) :
    System.runQuery B logs scan bins =
      .putting
        (keptBins scan.limit (queryTable B scan
          (uncachedSpans (scanRange B scan).2 (scanRange B scan).1 bins) logs) bins)
        ((mergeRows (queryTable B scan
          (uncachedSpans (scanRange B scan).2 (scanRange B scan).1 bins) logs) bins).take
            scan.limit) := by
  have hempty : bins.isEmpty = false := by simpa using hbins
  unfold System.runQuery
  simp only [hempty, Bool.false_eq_true, if_false, queryTable_of_isEmpty]
  rw [finishScan, if_pos (all_rowBin scan _ logs)]

/-- A scan that queries the database keeps the invariant. -/
theorem ScanInv.runQuery (logs : List (Log Rest)) :
    ScanInv B s scan (System.runQuery B logs scan bins) := by
  have hnil : BinsIn (B.size scan.query) (scanRange B scan) [] :=
    ⟨nofun, nofun, nofun, nofun, List.Pairwise.nil⟩
  by_cases hbins : bins = []
  · subst hbins
    exact ⟨hnil, nofun, nofun, nofun, nofun, nofun⟩
  · rw [runQuery_cons logs hbins]
    exact ⟨hnil, nofun, nofun, nofun, nofun, nofun⟩

/-- A quiet scan that queries the database stays quiet. -/
theorem QuietScan.runQuery (h : ScanInv B s scan (.querying bins))
    (hq : QuietScan B s scan (.querying bins)) :
    QuietScan B s scan (System.runQuery B (s.projectLogs scan.project) scan bins) := by
  by_cases hbins : bins = []
  · subst hbins
    refine ⟨hq.untouched, nofun, nofun, fun table htable => ?_⟩
    exact (Option.some.inj htable).symm
  · rw [runQuery_cons _ hbins]
    refine ⟨hq.untouched, nofun, nofun, fun table htable => ?_⟩
    rw [← Option.some.inj htable, oneQuery]
    exact mergeRows_take h.binsIn hq.hits

/-- A bin is kept with the rows that its Logs give now. -/
theorem computed_of_kept (h : ScanInv B s scan (.querying bins)) {rows : List Row}
    (hkept : (key, rows) ∈ (System.runQuery B (s.projectLogs scan.project) scan bins).kept) :
    KeyOld s key ∧ Computed B s key rows := by
  by_cases hbins : bins = []
  · subst hbins
    exact absurd hkept List.not_mem_nil
  · rw [runQuery_cons _ hbins] at hkept
    obtain ⟨bin, hbin, rfl, rfl⟩ := mem_keptBins h.binsIn hkept
    obtain ⟨hmem, hstart⟩ := h.bin_key bin hbin
    have hread := h.keys _ hmem
    refine ⟨hread.old, scan.query, hread.toKeyOf, ?_⟩
    rw [hstart, hread.project_eq]

end Phases

/-- What a scan does next keeps the invariant. -/
theorem Inv.scanNext (hinv : Inv B s) {i : ℕ} {sc : Scan Q} (hsc : sc ∈ s.scans)
    {next : ScanPhase × BinCache} (hnext : s.scanNext B sc.scan sc.phase = some next) :
    Inv B (s.setPhase i sc next) := by
  obtain ⟨scan, phase, disturbed⟩ := sc
  have hscan := hinv.scans _ hsc
  have hquiet := hinv.quiet _ hsc
  have hcache : ∀ key rows, s.cache.holds key rows → s.atLarge key rows := fun _ _ h => Or.inl h
  simp only at hscan hquiet hnext
  cases phase with
  | reading bins start =>
    obtain rfl := Option.some.inj hnext
    refine hinv.setPhase hcache (fun key rows hkept => ?_) hscan.readKey fun hd =>
      (hquiet hd).readKey hinv hscan
    unfold System.readKey at hkept
    simp only at hkept
    split at hkept <;> exact absurd hkept List.not_mem_nil
  | looking bins start key =>
    obtain rfl := Option.some.inj hnext
    exact hinv.setPhase (fun key rows h => Or.inl (BinCache.holds_get h)) nofun
      (hscan.lookUp _ _) fun hd => (hquiet hd).lookUp hscan
  | querying bins =>
    obtain rfl := Option.some.inj hnext
    exact hinv.setPhase hcache (fun key rows hkept => Or.inr (computed_of_kept hscan hkept))
      (ScanInv.runQuery _) fun hd => (hquiet hd).runQuery hscan
  | putting kept table =>
    have hkeep : ∀ {key rows}, (key, rows) ∈ kept → s.atLarge key rows :=
      fun h => Or.inr ⟨_, hsc, h⟩
    cases kept with
    | nil =>
      obtain rfl := Option.some.inj hnext
      exact hinv.setPhase hcache nofun ⟨hscan.binsIn, nofun, nofun, nofun, nofun, nofun⟩ fun hd =>
        ⟨(hquiet hd).untouched, nofun, nofun, (hquiet hd).table⟩
    | cons bin kept =>
      obtain rfl := Option.some.inj hnext
      refine hinv.setPhase (fun key rows h => ?_)
        (fun key rows h => Or.inl (hkeep (List.mem_cons_of_mem _ h)))
        ⟨hscan.binsIn, nofun, nofun, nofun, nofun, nofun⟩ fun hd =>
        ⟨(hquiet hd).untouched, nofun, nofun, (hquiet hd).table⟩
      rcases BinCache.holds_put h with ⟨rfl, rfl⟩ | h
      · exact hkeep List.mem_cons_self
      · exact Or.inl h
  | returned table => simp [System.scanNext] at hnext
  | queryFailed => simp [System.scanNext] at hnext
  | badRow => simp [System.scanNext] at hnext

/-- The first bin of a range starts at its start or after, at a whole bin. -/
theorem le_firstBin (fromTime : ℤ) {size : ℤ} (hsize : 0 < size) :
    size ∣ firstBin fromTime size ∧ fromTime ≤ firstBin fromTime size := by
  have hdvd := dvd_binStart fromTime hsize
  have hin := (binStart_eq_iff hsize hdvd).mp rfl
  unfold firstBin
  simp only
  split
  · exact ⟨Int.dvd_add hdvd dvd_rfl, hin.2.le⟩
  · exact ⟨hdvd, by omega⟩

/-- A scan begins undisturbed if no write under way touches its range. -/
theorem Inv.startScan (hinv : Inv B s) (scan : TableScan Q) : Inv B (s.startScan B scan) := by
  obtain ⟨hdvd, hfrom⟩ := le_firstBin (scanRange B scan).1 (B.size_pos scan.query)
  have hnil : BinsIn (B.size scan.query) (scanRange B scan) [] :=
    ⟨nofun, nofun, nofun, nofun, List.Pairwise.nil⟩
  have hbegin : System.firstPhase B scan =
      .reading [] (firstBin (scanRange B scan).1 (B.size scan.query)) ∨
      System.firstPhase B scan = .querying [] := by
    unfold System.firstPhase
    simp only
    split
    · exact Or.inl rfl
    · exact Or.inr rfl
  unfold System.startScan
  simp only
  generalize System.firstPhase B scan = phase at hbegin ⊢
  have hkept : phase.kept = [] := by rcases hbegin with rfl | rfl <;> rfl
  have hlarge : ∀ {sc : Scan Q} {key rows}, sc.phase = phase →
      System.atLarge { s with scans := s.scans ++ [sc] } key rows → s.atLarge key rows := by
    intro sc key rows hsc h
    rcases h with h | ⟨sc', hsc', h⟩
    · exact Or.inl h
    · rcases List.mem_append.mp hsc' with hold | hnew
      · exact Or.inr ⟨sc', hold, h⟩
      · rw [List.mem_singleton.mp hnew, hsc, hkept] at h
        exact absurd h List.not_mem_nil
  refine ⟨hinv.writes, fun key rows h => hinv.atLarge key rows (hlarge rfl h), fun sc' hsc' => ?_,
    fun sc' hsc' hd => ?_⟩
  · rcases List.mem_append.mp hsc' with hold | hnew
    · exact (hinv.scans sc' hold).mono le_rfl
    · obtain rfl := List.mem_singleton.mp hnew
      rcases hbegin with rfl | rfl
      · refine ⟨hnil, nofun, nofun, fun start hstart => ?_, nofun, nofun⟩
        obtain rfl := Option.some.inj hstart
        exact ⟨hdvd, hfrom, nofun⟩
      · exact ⟨hnil, nofun, nofun, nofun, nofun, nofun⟩
  · rcases List.mem_append.mp hsc' with hold | hnew
    · have hq := hinv.quiet sc' hold hd
      exact ⟨hq.untouched, fun key hkey rows h => hq.keys key hkey rows (hlarge rfl h), hq.hits,
        hq.table⟩
    · obtain rfl := List.mem_singleton.mp hnew
      have huntouched : ∀ w ∈ s.writes, w.touches scan.project (scanRange B scan) = false := by
        simpa using hd
      have hquiet : ∀ w ∈ s.writes, ∀ τ, (scanRange B scan).1 ≤ τ → τ < (scanRange B scan).2 →
          ¬ w.reaches scan.project τ := fun w hw τ hfrom hto =>
        Write.not_reaches_of_touches (huntouched w hw) hfrom hto
      rcases hbegin with rfl | rfl <;> exact ⟨hquiet, nofun, nofun, nofun⟩

/-- A write begins: the scans whose range it touches are disturbed. -/
theorem Inv.startWrite (hinv : Inv B s) {w : Write Rest} (hw : w.WellFormed) :
    Inv B (s.startWrite B w) := by
  have hsub : s.writes ⊆ (s.startWrite B w).writes := List.subset_append_left _ _
  refine hinv.world (WorldStep.of_eq rfl rfl hsub) ?_ rfl ?_
  · intro v hv
    rcases List.mem_append.mp hv with hv | hv
    · exact hinv.writes v hv
    · rw [List.mem_singleton.mp hv]
      exact hw
  · intro sc' hsc'
    obtain ⟨sc, hsc, rfl⟩ := List.mem_map.mp hsc'
    refine ⟨sc, hsc, rfl, rfl, fun hd => ?_⟩
    obtain ⟨hquiet, htouches⟩ := Bool.or_eq_false_iff.mp hd
    refine ⟨hquiet, fun v hv τ hfrom hto => ?_⟩
    rcases List.mem_append.mp hv with hv | hv
    · exact (hinv.quiet sc hsc hquiet).untouched v hv τ hfrom hto
    · rw [List.mem_singleton.mp hv]
      exact Write.not_reaches_of_touches htouches hfrom hto

/-- A write moves on or returns: it reaches no more than before. -/
theorem Inv.moveWrite (hinv : Inv B s) (hstep : WorldStep s t) (hcache : t.cache = s.cache)
    (hscans : t.scans = s.scans)
    (hwrites : ∀ w' ∈ t.writes, w'.WellFormed ∧
      ∃ w ∈ s.writes, ∀ project τ, w'.reaches project τ → w.reaches project τ) : Inv B t := by
  refine hinv.world hstep (fun w hw => (hwrites w hw).1) hcache fun sc hsc => ?_
  rw [hscans] at hsc
  refine ⟨sc, hsc, rfl, rfl, fun hd => ⟨hd, fun w' hw' τ hfrom hto hreaches => ?_⟩⟩
  obtain ⟨-, w, hw, hle⟩ := hwrites w' hw'
  exact (hinv.quiet sc hsc hd).untouched w hw τ hfrom hto (hle _ _ hreaches)

/-- Moving a write on keeps what is said of writes, where it reaches no more. -/
theorem Inv.set_writes (hinv : Inv B s) {i : ℕ} {w w' : Write Rest} (hw : s.writes[i]? = some w)
    (hwell : w'.WellFormed) (hreaches : ∀ project τ, w'.reaches project τ → w.reaches project τ) :
    ∀ v ∈ s.writes.set i w', v.WellFormed ∧
      ∃ w ∈ s.writes, ∀ project τ, v.reaches project τ → w.reaches project τ := by
  intro v hv
  rcases List.mem_or_eq_of_mem_set hv with hv | rfl
  · exact ⟨hinv.writes v hv, v, hv, fun _ _ h => h⟩
  · exact ⟨hwell, w, List.mem_of_getElem? hw, hreaches⟩

/-- Ending a write leaves what is said of the others. -/
theorem Inv.erase_writes (hinv : Inv B s) (i : ℕ) :
    ∀ v ∈ s.writes.eraseIdx i, v.WellFormed ∧
      ∃ w ∈ s.writes, ∀ project τ, v.reaches project τ → w.reaches project τ := by
  intro v hv
  have hv := List.mem_of_mem_eraseIdx hv
  exact ⟨hinv.writes v hv, v, hv, fun _ _ h => h⟩

/-- Every step keeps the invariant. -/
theorem Inv.step (hinv : Inv B s) {a : Action Q Rest} (hstep : s.step B a = some t) : Inv B t := by
  cases a with
  | startScan scan =>
    obtain rfl := Option.some.inj hstep
    exact hinv.startScan scan
  | scanStep i =>
    simp only [System.step] at hstep
    split at hstep
    · rename_i sc hsc
      obtain ⟨next, hnext, rfl⟩ := Option.map_eq_some_iff.mp hstep
      exact hinv.scanNext (List.mem_of_getElem? hsc) hnext
    · cases hstep
  | failQuery i =>
    simp only [System.step] at hstep
    split at hstep
    · rename_i scan bins disturbed hsc
      obtain rfl := Option.some.inj hstep
      have hmem := List.mem_of_getElem? hsc
      refine hinv.setPhase (fun _ _ h => Or.inl h) nofun ?_ fun hd => ?_
      · exact ⟨⟨nofun, nofun, nofun, nofun, List.Pairwise.nil⟩, nofun, nofun, nofun, nofun, nofun⟩
      · exact ⟨(hinv.quiet _ hmem hd).untouched, nofun, nofun, nofun⟩
    · cases hstep
  | startInsert project logs =>
    simp only [System.step] at hstep
    split at hstep
    · obtain rfl := Option.some.inj hstep
      exact hinv.startWrite trivial
    · cases hstep
  | takeLogs i =>
    simp only [System.step] at hstep
    split at hstep
    · rename_i project logs hw
      obtain rfl := Option.some.inj hstep
      exact hinv.moveWrite (worldStep_takeLogs hw) rfl rfl
        (hinv.set_writes hw trivial fun _ _ h => h)
    · cases hstep
  | bumpInsert i =>
    simp only [System.step] at hstep
    split at hstep
    · rename_i project logs taken hw
      obtain rfl := Option.some.inj hstep
      exact hinv.moveWrite (worldStep_bumpInsert hw) rfl rfl
        (hinv.set_writes hw trivial fun _ _ h => h)
    · cases hstep
  | returnInsert i =>
    simp only [System.step] at hstep
    split at hstep
    · rename_i project logs taken hw
      obtain rfl := Option.some.inj hstep
      refine hinv.moveWrite (WorldStep.eraseWrite hw rfl rfl rfl fun _ _ h => ?_) rfl rfl
        (hinv.erase_writes i)
      exact absurd h.1 (by simp)
    · cases hstep
  | startDrop days =>
    obtain rfl := Option.some.inj hstep
    exact hinv.startWrite ⟨List.Subset.refl _, List.nil_subset _⟩
  | dropNext i goes ok =>
    simp only [System.step] at hstep
    split at hstep
    · rename_i days d todo touched hw
      obtain rfl := Option.some.inj hstep
      obtain ⟨htodo, htouched⟩ := hinv.writes _ (List.mem_of_getElem? hw)
      have hday : d ∈ days := htodo List.mem_cons_self
      refine hinv.moveWrite (worldStep_dropNext hw hday) rfl rfl
        (hinv.set_writes hw ⟨?_, ?_⟩ fun _ _ h => h)
      · split
        · exact List.Subset.trans (List.subset_cons_self _ _) htodo
        · exact List.nil_subset _
      · intro e he
        rcases List.mem_insert_iff.mp he with rfl | he
        · exact hday
        · exact htouched he
    · cases hstep
  | bumpDay i d =>
    simp only [System.step] at hstep
    split at hstep
    · rename_i days touched hw
      split at hstep
      · obtain rfl := Option.some.inj hstep
        obtain ⟨htodo, htouched⟩ := hinv.writes _ (List.mem_of_getElem? hw)
        exact hinv.moveWrite (worldStep_bumpDay hw) rfl rfl
          (hinv.set_writes hw ⟨htodo, List.Subset.trans List.erase_subset htouched⟩ fun _ _ h => h)
      · cases hstep
    · cases hstep
  | returnDrop i =>
    simp only [System.step] at hstep
    split at hstep
    · rename_i days hw
      obtain rfl := Option.some.inj hstep
      refine hinv.moveWrite (WorldStep.eraseWrite hw rfl rfl rfl fun _ _ h => ?_) rfl rfl
        (hinv.erase_writes i)
      obtain ⟨d, hd, -⟩ := h
      exact absurd hd List.not_mem_nil
    · cases hstep

end Steps

section Progress

/-- How many steps a scan has left, at most. -/
def ScanPhase.left (B : BinnedQueries Q Rest) (scan : TableScan Q) : ScanPhase → ℕ
  | .reading bins start =>
    3 * (((scanRange B scan).2 - start) / B.size scan.query).toNat + bins.length + 4
  | .looking bins start _ =>
    3 * (((scanRange B scan).2 - start) / B.size scan.query).toNat + bins.length + 3
  | .querying bins => bins.length + 2
  | .putting kept _ => kept.length + 1
  | _ => 0

/-- A scan that reads the key of its next bin has less left to do. -/
theorem left_readKey (g : Generations) (scan : TableScan Q) (bins : List TimeBin) (start : ℤ) :
    (System.readKey B g scan bins start).left B scan < (ScanPhase.reading bins start).left B scan := by
  unfold System.readKey
  simp only
  split
  · simp only [ScanPhase.left]
    omega
  · simp only [ScanPhase.left]
    omega

/-- A scan that looks its key up has less left to do. -/
theorem left_lookUp {scan : TableScan Q} {bins : List TimeBin} {start : ℤ} {key : BinKey}
    (h : ScanInv B s scan (.looking bins start key)) (bin : TimeBin) :
    (ScanPhase.reading (bins ++ [bin]) (start + B.size scan.query)).left B scan <
      (ScanPhase.looking bins start key).left B scan := by
  have hsize := B.size_pos scan.query
  have hread := h.keys key List.mem_cons_self
  have hto : start + B.size scan.query ≤ (scanRange B scan).2 := by
    have := hread.le_range
    rwa [hread.size_eq, h.looking _ _ _ rfl] at this
  -- one bin fewer is left
  have hfewer : ((scanRange B scan).2 - (start + B.size scan.query)) / B.size scan.query =
      ((scanRange B scan).2 - start) / B.size scan.query - 1 := by
    rw [← sub_sub, Int.sub_ediv_of_dvd _ dvd_rfl, Int.ediv_self hsize.ne']
  have hone : 1 ≤ ((scanRange B scan).2 - start) / B.size scan.query := by
    rw [Int.le_ediv_iff_mul_le hsize]
    omega
  simp only [ScanPhase.left, hfewer, List.length_append, List.length_singleton]
  omega

/-- A scan that queries the database has less left to do. -/
theorem left_runQuery (logs : List (Log Rest)) (scan : TableScan Q) (bins : List TimeBin) :
    (System.runQuery B logs scan bins).left B scan < (ScanPhase.querying bins).left B scan := by
  by_cases hbins : bins = []
  · subst hbins
    simp [runQuery_nil, ScanPhase.left]
  · rw [runQuery_cons logs hbins]
    have hkept : ∀ rows, (keptBins scan.limit rows bins).length ≤ bins.length := by
      intro rows
      rw [keptBins, List.length_map]
      exact List.length_filter_le _ _
    have := hkept (queryTable B scan
      (uncachedSpans (scanRange B scan).2 (scanRange B scan).1 bins) logs)
    simp only [ScanPhase.left]
    omega

/-- A scan that has neither returned nor failed can go on, and has fewer steps left then. -/
theorem exists_scanNext {scan : TableScan Q} {phase : ScanPhase} (h : ScanInv B s scan phase) :
    phase = .queryFailed ∨ (∃ table, phase = .returned table) ∨
      ∃ next, s.scanNext B scan phase = some next ∧ next.1 ≠ .queryFailed ∧
        next.1.left B scan < phase.left B scan := by
  cases phase with
  | reading bins start =>
    refine Or.inr (Or.inr ⟨_, rfl, ?_, left_readKey _ _ _ _⟩)
    simp only [System.readKey]
    split <;> exact nofun
  | looking bins start key => exact Or.inr (Or.inr ⟨_, rfl, nofun, left_lookUp h _⟩)
  | querying bins =>
    refine Or.inr (Or.inr ⟨_, rfl, ?_, left_runQuery _ _ _⟩)
    by_cases hbins : bins = []
    · subst hbins
      exact nofun
    · simp only [runQuery_cons _ hbins]
      exact nofun
  | putting kept table =>
    cases kept with
    | nil => exact Or.inr (Or.inr ⟨_, rfl, nofun, by simp [ScanPhase.left]⟩)
    | cons bin kept => exact Or.inr (Or.inr ⟨_, rfl, nofun, by simp [ScanPhase.left]⟩)
  | returned table => exact Or.inr (Or.inl ⟨table, rfl⟩)
  | queryFailed => exact Or.inl rfl
  | badRow => exact absurd rfl h.notBad

/-- A scan whose query does not fail returns by its own steps alone. -/
theorem exists_returned {i : ℕ} {sc : Scan Q} (hinv : Inv B s) (hsc : s.scans[i]? = some sc)
    (hfailed : sc.phase ≠ .queryFailed) :
    ∃ t table, Transition.Reaches (System.step B) (fun _ a => a = .scanStep i) s t ∧
      t.logs = s.logs ∧ t.scans[i]? = some { sc with phase := .returned table } := by
  generalize hn : sc.phase.left B sc.scan = n
  induction n using Nat.strong_induction_on generalizing s sc with
  | _ n ih =>
    rcases exists_scanNext (hinv.scans sc (List.mem_of_getElem? hsc)) with hf | ⟨table, htable⟩ | hnext
    · exact absurd hf hfailed
    · refine ⟨s, table, Relation.ReflTransGen.refl, rfl, ?_⟩
      rw [hsc, ← htable]
    · obtain ⟨next, hnext, hfailed', hless⟩ := hnext
      have hstep : s.step B (.scanStep i) = some (s.setPhase i sc next) := by
        simp only [System.step, hsc, hnext, Option.map_some]
      have hsc' : (s.setPhase i sc next).scans[i]? = some { sc with phase := next.1 } :=
        List.getElem?_set_self (List.getElem?_eq_some_iff.mp hsc).1
      obtain ⟨t, table, hrun, hlogs, ht⟩ :=
        ih _ (hn ▸ hless) (hinv.step hstep) hsc' hfailed' rfl
      exact ⟨t, table, Relation.ReflTransGen.head ⟨_, rfl, hstep⟩ hrun, hlogs, ht⟩

end Progress

/-- In every run, a scan that began after every write touching its range had returned, and that no
such write has begun beside, returns exactly the rows of the one query over its whole range. Left
to itself it does return them, unless its query fails. -/
theorem scan_returns_oneQuery {logs : List (StoredLog Rest)} {maxBytes : ℤ}
    (hrun : Transition.Reaches (System.step B) (fun _ _ => True) (System.start logs maxBytes) s)
    {i : ℕ} {sc : Scan Q} (hsc : s.scans[i]? = some sc) (hundisturbed : sc.disturbed = false) :
    (∀ table, sc.phase = .returned table →
      table = oneQuery B sc.scan (s.projectLogs sc.scan.project)) ∧
    (sc.phase = .queryFailed ∨
      ∃ t, Transition.Reaches (System.step B) (fun _ a => a = .scanStep i) s t ∧
        t.scans[i]? = some { sc with
          phase := .returned (oneQuery B sc.scan (s.projectLogs sc.scan.project)) }) := by
  have hinv : Inv B s := hrun.invariant (inv_start logs maxBytes) fun _ _ _ h _ hstep => h.step hstep
  constructor
  · intro table htable
    refine (hinv.quiet sc (List.mem_of_getElem? hsc) hundisturbed).table table ?_
    rw [htable]
    rfl
  · by_cases hfailed : sc.phase = .queryFailed
    · exact Or.inl hfailed
    · obtain ⟨t, table, hreaches, hlogs, ht⟩ := exists_returned hinv hsc hfailed
      have hinv' : Inv B t := hreaches.invariant hinv fun _ _ _ h _ hstep => h.step hstep
      have htable := (hinv'.quiet _ (List.mem_of_getElem? ht) hundisturbed).table table rfl
      simp only [System.projectLogs, hlogs] at htable
      refine Or.inr ⟨t, hreaches, ?_⟩
      rw [ht, htable]
      rfl

section Example

/-- `summarize count() by bin(time, 1h)`, over any range. -/
def countByHour : BinnedQueries (ℤ × ℤ) Unit :=
  BinnedQueries.ofBins Prod.fst Prod.snd (fun _ => hour) (fun _ => "0f")
    (fun _ start logs => [[.time start, .number logs.length]]) (fun _ => hour_pos)
    (by simp [rowBin]) (by simp)

/-- The first two hours of 1970, seen at the third. -/
private def twoHours : TableScan (ℤ × ℤ) := ⟨7, (0, 2 * hour), 10001, 3 * hour, by decide⟩

/-- Two scans fill the cache and take a bin of it while an insert is under way, and a third begins
after the insert has returned. -/
private def staleBinActions : List (Action (ℤ × ℤ) Unit) :=
  [Action.startScan twoHours] ++ List.replicate 9 (Action.scanStep 0) ++
    [Action.startInsert 7 [⟨20, ()⟩], .takeLogs 0, .startScan twoHours, .scanStep 1, .scanStep 1,
      .bumpInsert 0, .returnInsert 0, .startScan twoHours] ++ List.replicate 8 (Action.scanStep 2)

def staleBinStart : System (ℤ × ℤ) Unit :=
  System.start [⟨7, ⟨10, ()⟩⟩, ⟨7, ⟨hour + 5, ()⟩⟩] 100000

/-- Whether an undisturbed scan has returned rows of the first two hours. -/
private def returnedTwoHours (sc : Scan (ℤ × ℤ)) : Bool :=
  match sc with
  | ⟨_, .returned table, false⟩ => table.map mustRowBin = [0, hour]
  | _ => false

/-- The run of the stale bin is one. -/
private theorem staleBin_runs :
    (Transition.run (System.step countByHour) (fun _ _ => True) staleBinStart
      staleBinActions).isSome = true := by decide +kernel

/-- The third scan of that run returns rows of both hours. -/
private theorem staleBin_returns :
    (((Transition.run (System.step countByHour) (fun _ _ => True) staleBinStart
      staleBinActions).get staleBin_runs).scans[2]?.any returnedTwoHours) = true := by
  decide +kernel

/-- The third scan takes the second hour from the cache and works the first out anew. -/
theorem scan_returns_oneQuery_staleBin :
    ∃ (s : System (ℤ × ℤ) Unit) (scan : TableScan (ℤ × ℤ)) (table : List Row),
      Transition.Reaches (System.step countByHour) (fun _ _ => True) staleBinStart s ∧
      s.scans[2]? = some ⟨scan, .returned table, false⟩ ∧
      table.map mustRowBin = [0, hour] ∧
      table = oneQuery countByHour scan (s.projectLogs scan.project) := by
  have hreturns := staleBin_returns
  have hrun := Transition.reaches_of_run (Option.some_get staleBin_runs).symm
  generalize (Transition.run (System.step countByHour) (fun _ _ => True) staleBinStart
    staleBinActions).get staleBin_runs = s at hreturns hrun
  obtain ⟨sc, hsc, hreturned⟩ := (Option.any_eq_true _ _).mp hreturns
  unfold returnedTwoHours at hreturned
  split at hreturned
  · rename_i scan table
    exact ⟨s, scan, table, hrun, hsc, by simpa using hreturned,
      (scan_returns_oneQuery hrun hsc rfl).1 table rfl⟩
  · simp at hreturned

end Example

end SolidTrace.LogTables
