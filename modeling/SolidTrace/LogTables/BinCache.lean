import SolidTrace.Storage.PebbleWriter

/-!
# The bin cache and the generations of its hours

The bin cache keeps the rows of a table's time bins, least recently used out first. A bin is kept
under a key that holds the generation of every hour it covers. Inserting Logs changes the
generations of their hours and deleting a day those of its hours. Times are in microseconds since
1970.
-/

namespace SolidTrace.LogTables

open Storage (ProjectID)

/-- A value of a row. -/
inductive Value where
  | null
  | bool (b : Bool)
  | number (n : ℚ)
  | string (s : String)
  | bytes (b : List UInt8)
  | time (micros : ℤ)
  | tuple (parts : List Value)
  | map (entries : List (String × Value))

abbrev Row := List Value

/-- A Log: the time that bins go by, and all the rest of it. -/
structure Log (Rest : Type*) where
  time : ℤ
  rest : Rest

/-- One hour. -/
def hour : ℤ := 3600000000

/-- One UTC day. -/
def day : ℤ := 24 * hour

/-- An hour takes some time. -/
theorem hour_pos : 0 < hour := by decide

/-- The hour a time is in. -/
def truncateHour (t : ℤ) : ℤ := t / hour * hour

/-- An hour starts at a time or before it. -/
theorem truncateHour_le (t : ℤ) : truncateHour t ≤ t := Int.ediv_mul_le t hour_pos.ne'

/-- The hours from one on, up to those not before `stop`. -/
def hoursFrom (first stop : ℤ) : List ℤ :=
  (List.range ((stop - first + hour - 1) / hour).toNat).map fun i : ℕ => first + (i : ℤ) * hour

/-- An hour that starts a whole number of hours after the first, and before the stop, is one of
them. -/
theorem mem_hoursFrom {first stop h : ℤ} (hfirst : first ≤ h) (hstop : h < stop)
    (hwhole : hour ∣ h - first) : h ∈ hoursFrom first stop := by
  obtain ⟨i, hi⟩ := hwhole
  have hpos := hour_pos
  have hi0 : 0 ≤ i := by
    by_contra hneg
    have : hour * i < 0 := mul_neg_of_pos_of_neg hpos (by omega)
    omega
  refine List.mem_map.mpr ⟨i.toNat, List.mem_range.mpr ?_, ?_⟩
  · have hle : i + 1 ≤ (stop - first + hour - 1) / hour := by
      rw [Int.le_ediv_iff_mul_le hpos, add_mul, mul_comm i]
      omega
    omega
  · rw [Int.toNat_of_nonneg hi0, mul_comm]
    omega

/-- An hour starts at a whole hour. -/
theorem hour_dvd_truncateHour (t : ℤ) : hour ∣ truncateHour t := Dvd.intro_left _ rfl

/-- The hour of a time is one of those that a span with the time covers. -/
theorem truncateHour_mem_hoursFrom {start stop t : ℤ} (hstart : start ≤ t) (hstop : t < stop) :
    truncateHour t ∈ hoursFrom (truncateHour start) stop := by
  refine mem_hoursFrom ?_ ((truncateHour_le t).trans_lt hstop)
    (Int.dvd_sub (hour_dvd_truncateHour t) (hour_dvd_truncateHour start))
  exact Int.mul_le_mul_of_nonneg_right (Int.ediv_le_ediv hour_pos hstart) hour_pos.le

section Generations

/-- An hour of a Project's Logs. -/
structure ProjectHour where
  project : ProjectID
  hour : ℤ
deriving DecidableEq

/-- The generation of each hour of a Project. The source counts them in a uint64, here they have no bound. -/
abbrev Generations := ProjectHour → ℕ

variable {Rest : Type*}

/-- Change the generation of each hour of a Project that the Logs are in. -/
def bump (g : Generations) (project : ProjectID) (logs : List (Log Rest)) : Generations :=
  fun h => if h.project = project ∧ ∃ log ∈ logs, truncateHour log.time = h.hour then g h + 1 else g h

/-- Change the generation of each hour of a Project's day. -/
def bumpDay (g : Generations) (project : ProjectID) (start : ℤ) : Generations :=
  fun h => if h.project = project ∧ h.hour ∈ hoursFrom start (start + day) then g h + 1 else g h

/-- The generations of a Project's hours that a span covers. -/
def generationsOf (g : Generations) (project : ProjectID) (start stop : ℤ) : List ℕ :=
  (hoursFrom (truncateHour start) stop).map fun h => g ⟨project, h⟩

/-- Bumping lowers no generation. -/
theorem le_bump (g : Generations) (project : ProjectID) (logs : List (Log Rest)) :
    g ≤ bump g project logs := by
  intro h
  unfold bump
  split
  · exact Nat.le_succ _
  · exact le_rfl

/-- Bumping a day lowers no generation. -/
theorem le_bumpDay (g : Generations) (project : ProjectID) (start : ℤ) :
    g ≤ bumpDay g project start := by
  intro h
  unfold bumpDay
  split
  · exact Nat.le_succ _
  · exact le_rfl

/-- Bumping the Logs of an insert raises the generation of each one's hour. -/
theorem lt_bump (g : Generations) (project : ProjectID) {logs : List (Log Rest)} {log : Log Rest}
    (hlog : log ∈ logs) :
    g ⟨project, truncateHour log.time⟩ < bump g project logs ⟨project, truncateHour log.time⟩ := by
  unfold bump
  rw [if_pos ⟨rfl, log, hlog, rfl⟩]
  omega

/-- Bumping a day raises the generation of each of its hours. -/
theorem lt_bumpDay (g : Generations) (project : ProjectID) {start t : ℤ} (hwhole : hour ∣ start)
    (hstart : start ≤ t) (hstop : t < start + day) :
    g ⟨project, truncateHour t⟩ < bumpDay g project start ⟨project, truncateHour t⟩ := by
  have hmem : truncateHour t ∈ hoursFrom start (start + day) := by
    have := truncateHour_mem_hoursFrom hstart hstop
    rwa [truncateHour, Int.ediv_mul_cancel hwhole] at this
  unfold bumpDay
  rw [if_pos ⟨rfl, hmem⟩]
  omega

end Generations

section Bins

/-- The start of the bin of a size that a time is in. -/
def binStart (t size : ℤ) : ℤ :=
  let start := t.tdiv size * size
  if start > t then start - size else start

/-- A bin starts at a whole multiple of its size. -/
theorem binStart_eq (t : ℤ) {size : ℤ} (hsize : 0 < size) : binStart t size = t / size * size := by
  have hdiv := Int.mul_tdiv_add_tmod t size
  have hediv := Int.mul_ediv_add_emod t size
  have hmod0 := Int.emod_nonneg t hsize.ne'
  have hmod1 := Int.emod_lt_of_pos t hsize
  unfold binStart
  rcases le_or_gt 0 t with ht | ht
  · rw [Int.tdiv_eq_ediv_of_nonneg ht, if_neg (not_lt.mpr (Int.ediv_mul_le t hsize.ne'))]
  · have htmod0 : t.tmod size ≤ 0 := by
      have := Int.tmod_nonneg size (Int.neg_nonneg_of_nonpos ht.le)
      rw [Int.neg_tmod] at this
      omega
    have htmod1 : -size < t.tmod size := by
      have := Int.tmod_lt_of_pos (-t) hsize
      rw [Int.neg_tmod] at this
      omega
    by_cases hzero : t.tmod size = 0
    · have hdvd : size ∣ t := Int.dvd_of_tmod_eq_zero hzero
      rw [Int.tdiv_eq_ediv_of_dvd hdvd, if_neg (not_lt.mpr (Int.ediv_mul_le t hsize.ne'))]
    · have hq : t / size = t.tdiv size - 1 := by
        rw [Int.ediv_eq_iff_of_pos hsize]
        constructor
        · rw [sub_mul, mul_comm]
          omega
        · rw [sub_mul, mul_comm]
          omega
      rw [if_pos (by rw [mul_comm]; omega), hq, sub_mul, one_mul]

/-- A time is in the bin that starts at a multiple of the size exactly if it lies in it. -/
theorem binStart_eq_iff {t size start : ℤ} (hsize : 0 < size) (hstart : size ∣ start) :
    binStart t size = start ↔ start ≤ t ∧ t < start + size := by
  obtain ⟨k, rfl⟩ := hstart
  rw [binStart_eq t hsize, mul_comm size k]
  constructor
  · intro h
    have hk : t / size = k := mul_right_cancel₀ hsize.ne' h
    exact (Int.ediv_eq_iff_of_pos hsize).mp hk
  · intro h
    rw [(Int.ediv_eq_iff_of_pos hsize).mpr h]

/-- A bin's start is divided by its size. -/
theorem dvd_binStart (t : ℤ) {size : ℤ} (hsize : 0 < size) : size ∣ binStart t size := by
  rw [binStart_eq t hsize]
  exact Dvd.intro_left _ rfl

/-- The start of a row's bin, its first column. -/
def rowBin : Row → Option ℤ
  | .time start :: _ => some start
  | _ => none

/-- The start of the bin of a row that `rowBin` has read before. -/
def mustRowBin (row : Row) : ℤ := (rowBin row).getD 0

end Bins

section Cache

/-- What a bin is kept under. -/
structure BinKey where
  project : ProjectID
  query : String
  size : ℤ
  start : ℤ
  generations : List ℕ
deriving DecidableEq

/-- The key as it is written. A Query's key is hexadecimal, so the text tells keys apart. -/
def BinKey.text (key : BinKey) : String :=
  s!"{key.project.val}/{key.query}/{key.size}/{key.start}/" ++
    String.join (key.generations.map fun g => toString g ++ ",")

mutual

/-- A guess at the memory a value takes. -/
def valueBytes : Value → ℕ
  | .null => 0
  | .string s => s.utf8ByteSize
  | .bytes b => b.length
  | .time _ => 24
  | .tuple parts => 24 + partsBytes parts
  | .map entries => 48 + entriesBytes entries
  | .bool _ => 8
  | .number _ => 8

def partsBytes : List Value → ℕ
  | [] => 0
  | part :: parts => 16 + valueBytes part + partsBytes parts

def entriesBytes : List (String × Value) → ℕ
  | [] => 0
  | (key, part) :: entries => 32 + key.utf8ByteSize + valueBytes part + entriesBytes entries

end

/-- A guess at the memory a bin's entry takes. -/
def binEntryBytes (key : BinKey) (rows : List Row) : ℕ :=
  160 + key.text.utf8ByteSize +
    (rows.map fun row => 24 + 16 * row.length + (row.map valueBytes).sum).sum

structure BinEntry where
  key : BinKey
  rows : List Row
  bytes : ℤ

/-- The bin cache. `recent` has the most recently used entry first. -/
structure BinCache where
  maxBytes : ℤ
  bytes : ℤ
  recent : List BinEntry

namespace BinCache

/-- An empty cache. -/
def new (maxBytes : ℤ) : BinCache := ⟨maxBytes, 0, []⟩

def get (c : BinCache) (key : BinKey) : Option (List Row) × BinCache :=
  match c.recent.find? (·.key = key) with
  | none => (none, c)
  | some entry =>
    (some entry.rows, { c with recent := entry :: c.recent.eraseP (·.key = key) })

/-- Drop entries, the oldest first, until what is left fits. -/
def evict (maxBytes : ℤ) : ℤ → List BinEntry → ℤ × List BinEntry
  | bytes, [] => (bytes, [])
  | bytes, oldest :: entries =>
    if bytes > maxBytes then evict maxBytes (bytes - oldest.bytes) entries
    else (bytes, oldest :: entries)

def put (c : BinCache) (key : BinKey) (rows : List Row) : BinCache :=
  let entry : BinEntry := ⟨key, rows, binEntryBytes key rows⟩
  if entry.bytes > c.maxBytes then c
  else
    let replaced := match c.recent.find? (·.key = key) with
      | some old => c.bytes - old.bytes
      | none => c.bytes
    let kept := evict c.maxBytes (replaced + entry.bytes)
      (entry :: c.recent.eraseP (·.key = key)).reverse
    { c with bytes := kept.1, recent := kept.2.reverse }

/-- The keys a cache holds, with their rows. -/
def holds (c : BinCache) (key : BinKey) (rows : List Row) : Prop :=
  ∃ entry ∈ c.recent, entry.key = key ∧ entry.rows = rows

/-- What a cache gives is what it holds. -/
theorem holds_of_get {c : BinCache} {key : BinKey} {rows : List Row}
    (h : (c.get key).1 = some rows) : c.holds key rows := by
  unfold get at h
  split at h
  · simp at h
  · rename_i entry hfind
    refine ⟨entry, List.mem_of_find?_eq_some hfind, ?_, by simpa using h⟩
    simpa using List.find?_some hfind

/-- Giving rows of an entry adds no entry. -/
theorem holds_get {c : BinCache} {key key' : BinKey} {rows : List Row}
    (h : (c.get key).2.holds key' rows) : c.holds key' rows := by
  obtain ⟨entry, hentry, hholds⟩ := h
  unfold get at hentry
  split at hentry
  · exact ⟨entry, hentry, hholds⟩
  · rename_i found hfind
    rcases List.mem_cons.mp hentry with rfl | hrest
    · exact ⟨entry, List.mem_of_find?_eq_some hfind, hholds⟩
    · exact ⟨entry, List.mem_of_mem_eraseP hrest, hholds⟩

/-- Evicting drops the entries used longest ago. -/
theorem evict_suffix (maxBytes bytes : ℤ) (entries : List BinEntry) :
    (evict maxBytes bytes entries).2 <:+ entries := by
  induction entries generalizing bytes with
  | nil => simp [evict]
  | cons oldest entries ih =>
    unfold evict
    split
    · exact (ih _).trans (List.suffix_cons _ _)
    · exact List.suffix_rfl

/-- A put adds at most its own rows, whatever it evicts. -/
theorem holds_put {c : BinCache} {key key' : BinKey} {rows rows' : List Row}
    (h : (c.put key rows).holds key' rows') : (key' = key ∧ rows' = rows) ∨ c.holds key' rows' := by
  obtain ⟨entry, hentry, rfl, rfl⟩ := h
  rw [put] at hentry
  by_cases hlarge : (binEntryBytes key rows : ℤ) > c.maxBytes
  · rw [if_pos hlarge] at hentry
    exact Or.inr ⟨entry, hentry, rfl, rfl⟩
  · rw [if_neg hlarge] at hentry
    have hkept := (evict_suffix _ _ _).subset (List.mem_reverse.mp hentry)
    rcases List.mem_cons.mp (List.mem_reverse.mp hkept) with rfl | hrest
    · exact Or.inl ⟨rfl, rfl⟩
    · exact Or.inr ⟨entry, List.mem_of_mem_eraseP hrest, rfl, rfl⟩

end BinCache

end Cache

end SolidTrace.LogTables
