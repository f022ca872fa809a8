import Mathlib.Data.List.Nodup
import Mathlib.Data.List.Perm.Subperm
import SolidTrace.Storage.PebbleWriter

/-!
# The slots of heavy reads

`HeavyReads` caps the heavy Log reads of an instance. The reads of one Query over one range share a
slot, which is free once the last of them gives it back. A read with an owner replaces the owner's
older reads of other Queries or ranges, which are stopped, if it then finds a slot.
-/

namespace SolidTrace.LogReads

open Storage

section Reads

/-- What a read reads: a Project's Logs by a Query over a range, in nanoseconds since 1970. -/
structure ReadOf where
  project : ProjectID
  query : String
  fromTime : ℤ
  toTime : ℤ
deriving DecidableEq

/-- `time.Time.UnixNano`, an int64 that wraps around past the year 2262. -/
def unixNano (t : ℤ) : ℤ := Int.bmod t (2 ^ 64)

def slotKey (of : ReadOf) : String :=
  s!"{of.project.val} {unixNano of.fromTime} {unixNano of.toTime} {of.query}"

/-- A read holding a slot, or one that did. Its number is its address. -/
structure HeavyRead where
  number : ℕ
  key : String
  owner : String
deriving DecidableEq

/-- The reads holding one slot. -/
structure Slot where
  key : String
  reads : List HeavyRead
deriving DecidableEq

end Reads

section Slots

/-- The slots held, in the order they are ranged over, and how many there are. -/
structure HeavyReads where
  slots : ℕ
  held : List Slot
deriving DecidableEq

/-- Give back a read's share of its slot, if it still has one. -/
def drop (held : List Slot) (read : HeavyRead) : List Slot :=
  (held.map fun s => if s.key = read.key then ⟨s.key, s.reads.erase read⟩ else s).filter fun s =>
    s.key ≠ read.key ∨ s.reads ≠ []

/-- Add a read to the slot of its key, or to a new one. -/
def add (held : List Slot) (read : HeavyRead) : List Slot :=
  if held.any (·.key = read.key) then
    held.map fun s => if s.key = read.key then ⟨s.key, read :: s.reads⟩ else s
  else held ++ [⟨read.key, [read]⟩]

/-- Whether a read leaves all the reads of a slot alone. -/
def leaves (read : HeavyRead) (s : Slot) : Bool := read.owner = "" || s.key = read.key

/-- The reads of a slot that a read replaces. -/
def replacedIn (read : HeavyRead) (s : Slot) : List HeavyRead :=
  if leaves read s then [] else s.reads.filter (·.owner = read.owner)

/-- Whether a read replaces all the reads of a slot. -/
def frees (read : HeavyRead) (s : Slot) : Bool :=
  !leaves read s && (replacedIn read s).length = s.reads.length

/-- Take a slot for a read, if there is one: the slots then, and the reads stopped for it. -/
def HeavyReads.take (h : HeavyReads) (read : HeavyRead) : Option (HeavyReads × List HeavyRead) :=
  let replaced := h.held.flatMap (replacedIn read)
  let freed := h.held.countP (frees read)
  if 0 < h.slots ∧ h.held.any (·.key = read.key) = false ∧ h.slots ≤ h.held.length - freed then none
  else some (⟨h.slots, add (replaced.foldl drop h.held) read⟩, replaced)

end Slots

section Shares

/-- Some slot has a share of the read's. -/
def Holds (held : List Slot) (read : HeavyRead) : Prop := ∃ s ∈ held, read ∈ s.reads

/-- Each slot is of its own key, and is held by reads of that key, each once. -/
structure WellFormed (held : List Slot) : Prop where
  keys : (held.map Slot.key).Nodup
  nonempty : ∀ s ∈ held, s.reads ≠ []
  ofKey : ∀ s ∈ held, ∀ r ∈ s.reads, r.key = s.key
  once : ∀ s ∈ held, s.reads.Nodup

variable {held : List Slot} {read x : HeavyRead}

/-- No slots are well formed. -/
theorem WellFormed.nil : WellFormed [] := ⟨List.nodup_nil, by simp, by simp, by simp⟩

/-- A read that is dropped leaves its slot, and an empty slot is gone. -/
theorem mem_drop {s : Slot} : s ∈ drop held read ↔
    s ∈ held ∧ s.key ≠ read.key ∨
      ∃ s' ∈ held, s'.key = read.key ∧ s = ⟨s'.key, s'.reads.erase read⟩ ∧ s'.reads.erase read ≠ [] := by
  unfold drop
  simp only [List.mem_filter, List.mem_map, decide_eq_true_eq]
  constructor
  · rintro ⟨⟨s', hs', rfl⟩, hkept⟩
    by_cases hkey : s'.key = read.key
    · rw [if_pos hkey] at hkept ⊢
      exact .inr ⟨s', hs', hkey, rfl, hkept.resolve_left (not_not.2 hkey)⟩
    · rw [if_neg hkey]
      exact .inl ⟨hs', hkey⟩
  · rintro (⟨hs, hkey⟩ | ⟨s', hs', hkey, rfl, hne⟩)
    · exact ⟨⟨s, hs, if_neg hkey⟩, .inl hkey⟩
    · exact ⟨⟨s', hs', if_pos hkey⟩, .inr hne⟩

/-- Slots of their own keys that hold something are told by what they hold. -/
theorem WellFormed.mem_keys (h : WellFormed held) {key : String} :
    key ∈ held.map Slot.key ↔ ∃ r, Holds held r ∧ r.key = key := by
  rw [List.mem_map]
  constructor
  · rintro ⟨s, hs, rfl⟩
    obtain ⟨r, hr⟩ := List.exists_mem_of_ne_nil _ (h.nonempty s hs)
    exact ⟨r, ⟨s, hs, hr⟩, h.ofKey s hs r hr⟩
  · rintro ⟨r, ⟨s, hs, hr⟩, rfl⟩
    exact ⟨s, hs, (h.ofKey s hs r hr).symm⟩

/-- Dropping a read leaves the slots well formed. -/
theorem wellFormed_drop (h : WellFormed held) (read : HeavyRead) :
    WellFormed (drop held read) where
  keys := by
    have hmap : ((held.map fun s => if s.key = read.key then ⟨s.key, s.reads.erase read⟩ else s).map
        Slot.key) = held.map Slot.key := by
      rw [List.map_map]
      refine List.map_congr_left fun s _ => ?_
      by_cases hkey : s.key = read.key <;> simp [hkey]
    exact (hmap ▸ h.keys).sublist ((List.filter_sublist).map _)
  nonempty s hs := by
    rcases mem_drop.1 hs with ⟨hs, -⟩ | ⟨s', -, -, rfl, hne⟩
    · exact h.nonempty s hs
    · exact hne
  ofKey s hs r hr := by
    rcases mem_drop.1 hs with ⟨hs, -⟩ | ⟨s', hs', -, rfl, -⟩
    · exact h.ofKey s hs r hr
    · exact h.ofKey s' hs' r (List.mem_of_mem_erase hr)
  once s hs := by
    rcases mem_drop.1 hs with ⟨hs, -⟩ | ⟨s', hs', -, rfl, -⟩
    · exact h.once s hs
    · exact (h.once s' hs').erase _

/-- Giving back a share takes it from its read and from no other. -/
theorem holds_drop (h : WellFormed held) :
    Holds (drop held read) x ↔ Holds held x ∧ x ≠ read := by
  constructor
  · rintro ⟨s, hs, hx⟩
    rcases mem_drop.1 hs with ⟨hs, hkey⟩ | ⟨s', hs', -, rfl, -⟩
    · refine ⟨⟨s, hs, hx⟩, fun hsame => hkey ?_⟩
      rw [← hsame, h.ofKey s hs x hx]
    · obtain ⟨hne, hmem⟩ := (h.once s' hs').mem_erase_iff.1 hx
      exact ⟨⟨s', hs', hmem⟩, hne⟩
  · rintro ⟨⟨s, hs, hx⟩, hne⟩
    by_cases hkey : s.key = read.key
    · have hmem : x ∈ s.reads.erase read := (h.once s hs).mem_erase_iff.2 ⟨hne, hx⟩
      exact ⟨_, mem_drop.2 (.inr ⟨s, hs, hkey, rfl, List.ne_nil_of_mem hmem⟩), hmem⟩
    · exact ⟨s, mem_drop.2 (.inl ⟨hs, hkey⟩), hx⟩

/-- A read without a share gives none back. -/
theorem drop_of_not_holds (h : WellFormed held) (hread : ¬ Holds held read) :
    drop held read = held := by
  have hmap : (held.map fun s => if s.key = read.key then ⟨s.key, s.reads.erase read⟩ else s) = held := by
    conv_rhs => rw [← List.map_id held]
    refine List.map_congr_left fun s hs => ?_
    have hnot : read ∉ s.reads := fun hmem => hread ⟨s, hs, hmem⟩
    rw [List.erase_of_not_mem hnot, id]
    split <;> rfl
  unfold drop
  rw [hmap, List.filter_eq_self]
  intro s hs
  simp [h.nonempty s hs]

/-- Dropping reads leaves the others. -/
theorem wellFormed_drops (h : WellFormed held) (reads : List HeavyRead) :
    WellFormed (reads.foldl drop held) ∧
      ∀ x, Holds (reads.foldl drop held) x ↔ Holds held x ∧ x ∉ reads := by
  induction reads generalizing held with
  | nil => exact ⟨h, by simp⟩
  | cons read reads ih =>
    obtain ⟨hformed, hholds⟩ := ih (wellFormed_drop h read)
    refine ⟨hformed, fun x => ?_⟩
    rw [List.foldl_cons, hholds x, holds_drop h, List.mem_cons, not_or, and_assoc]

/-- A key is held when a slot has it. -/
theorem any_key {key : String} : held.any (·.key = key) = true ↔ key ∈ held.map Slot.key := by
  simp [List.any_eq_true]

/-- A read that is added shares the slot of its key, or has a new one. -/
theorem wellFormed_add (h : WellFormed held) (hread : ¬ Holds held read) :
    WellFormed (add held read) ∧
      (∀ x, Holds (add held read) x ↔ Holds held x ∨ x = read) ∧
      (add held read).length =
        if held.any (·.key = read.key) then held.length else held.length + 1 := by
  unfold add
  split
  next hany =>
    have hkeys : ∀ s : Slot, (if s.key = read.key then (⟨s.key, read :: s.reads⟩ : Slot) else s).key = s.key := by
      intro s
      split <;> rfl
    refine ⟨⟨?_, ?_, ?_, ?_⟩, ?_, List.length_map _⟩
    · rw [List.map_map]
      simpa only [Function.comp_def, hkeys] using h.keys
    · intro s hs
      obtain ⟨s', hs', rfl⟩ := List.mem_map.1 hs
      split
      · simp
      · exact h.nonempty s' hs'
    · intro s hs r hr
      obtain ⟨s', hs', rfl⟩ := List.mem_map.1 hs
      rw [hkeys]
      split at hr
      next hkey =>
        rcases List.mem_cons.1 hr with rfl | hr
        · exact hkey.symm
        · exact h.ofKey s' hs' r hr
      · exact h.ofKey s' hs' r hr
    · intro s hs
      obtain ⟨s', hs', rfl⟩ := List.mem_map.1 hs
      split
      · exact List.nodup_cons.2 ⟨fun hmem => hread ⟨s', hs', hmem⟩, h.once s' hs'⟩
      · exact h.once s' hs'
    · intro x
      obtain ⟨s₀, hs₀, hkey₀⟩ := List.mem_map.1 (any_key.1 hany)
      constructor
      · rintro ⟨s, hs, hx⟩
        obtain ⟨s', hs', rfl⟩ := List.mem_map.1 hs
        split at hx
        · rcases List.mem_cons.1 hx with rfl | hx
          · exact .inr rfl
          · exact .inl ⟨s', hs', hx⟩
        · exact .inl ⟨s', hs', hx⟩
      · rintro (⟨s, hs, hx⟩ | rfl)
        · refine ⟨_, List.mem_map_of_mem hs, ?_⟩
          split
          · exact List.mem_cons_of_mem _ hx
          · exact hx
        · exact ⟨_, List.mem_map_of_mem hs₀, by simp [hkey₀]⟩
  next hany =>
    have hnew : read.key ∉ held.map Slot.key := fun hmem => hany (any_key.2 hmem)
    refine ⟨⟨?_, ?_, ?_, ?_⟩, fun x => ?_, by simp⟩
    · rw [List.map_append, List.map_singleton]
      exact h.keys.append (List.nodup_singleton _) (by simpa using hnew)
    · intro s hs
      rcases List.mem_append.1 hs with hs | hs
      · exact h.nonempty s hs
      · simp [List.mem_singleton.1 hs]
    · intro s hs r hr
      rcases List.mem_append.1 hs with hs | hs
      · exact h.ofKey s hs r hr
      · obtain rfl := List.mem_singleton.1 hs
        rw [List.mem_singleton.1 hr]
    · intro s hs
      rcases List.mem_append.1 hs with hs | hs
      · exact h.once s hs
      · rw [List.mem_singleton.1 hs]
        exact List.nodup_singleton _
    · simp [Holds, or_and_right, exists_or]

end Shares

section Takes

variable {h h' : HeavyReads} {read x : HeavyRead} {stopped : List HeavyRead}

/-- What a read replaces: the reads of its owner with other keys. -/
theorem WellFormed.mem_replaced (hformed : WellFormed h.held) : x ∈ h.held.flatMap (replacedIn read) ↔
    Holds h.held x ∧ read.owner ≠ "" ∧ x.owner = read.owner ∧ x.key ≠ read.key := by
  have hin : ∀ s ∈ h.held, x ∈ replacedIn read s ↔
      x ∈ s.reads ∧ read.owner ≠ "" ∧ x.owner = read.owner ∧ x.key ≠ read.key := by
    intro s hs
    unfold replacedIn leaves
    by_cases hmem : x ∈ s.reads
    · rw [hformed.ofKey s hs x hmem]
      split
      next hleaves =>
        simp only [Bool.or_eq_true, decide_eq_true_eq] at hleaves
        simp only [List.not_mem_nil, false_iff]
        tauto
      next hleaves =>
        simp only [Bool.or_eq_true, decide_eq_true_eq, not_or] at hleaves
        simp [hmem, hleaves]
    · split <;> simp [hmem]
  rw [List.mem_flatMap]
  constructor
  · rintro ⟨s, hs, hx⟩
    obtain ⟨hmem, hothers⟩ := (hin s hs).1 hx
    exact ⟨⟨s, hs, hmem⟩, hothers⟩
  · rintro ⟨⟨s, hs, hmem⟩, hothers⟩
    exact ⟨s, hs, (hin s hs).2 ⟨hmem, hothers⟩⟩

/-- A read replaces each read once. -/
theorem WellFormed.nodup_replaced (hformed : WellFormed h.held) :
    (h.held.flatMap (replacedIn read)).Nodup := by
  rw [List.nodup_flatMap]
  constructor
  · intro s hs
    unfold replacedIn
    split
    · exact List.nodup_nil
    · exact (hformed.once s hs).filter _
  · have hsub : ∀ s, ∀ r ∈ replacedIn read s, r ∈ s.reads := by
      intro s r hr
      unfold replacedIn at hr
      split at hr
      · cases hr
      · exact List.mem_of_mem_filter hr
    refine (List.pairwise_map.1 hformed.keys).imp_of_mem fun {s t} hs ht hne => ?_
    intro r hr hr'
    exact hne ((hformed.ofKey s hs r (hsub s r hr)).symm.trans (hformed.ofKey t ht r (hsub t r hr')))

/-- The slots that a read frees are those it leaves no read in. -/
theorem WellFormed.length_drops (hformed : WellFormed h.held) :
    ((h.held.flatMap (replacedIn read)).foldl drop h.held).length + h.held.countP (frees read) ≤
      h.held.length := by
  obtain ⟨hdropped, hholds⟩ := wellFormed_drops hformed (h.held.flatMap (replacedIn read))
  set after := (h.held.flatMap (replacedIn read)).foldl drop h.held
  have hfreed : ∀ s ∈ h.held, frees read s = true → ∀ r ∈ s.reads, r ∈ h.held.flatMap (replacedIn read) := by
    intro s hs hfrees r hr
    simp only [frees, Bool.and_eq_true, Bool.not_eq_true', decide_eq_true_eq] at hfrees
    obtain ⟨hleaves, hlength⟩ := hfrees
    simp only [replacedIn, hleaves, Bool.false_eq_true, if_false] at hlength
    have hall : s.reads.filter (·.owner = read.owner) = s.reads :=
      List.filter_sublist.eq_of_length hlength
    refine List.mem_flatMap.2 ⟨s, hs, ?_⟩
    rw [replacedIn, if_neg (by simp [hleaves]), hall]
    exact hr
  have hnodup : (after.map Slot.key ++ (h.held.filter (frees read)).map Slot.key).Nodup := by
    refine hdropped.keys.append (hformed.keys.sublist (List.filter_sublist.map _)) ?_
    intro key hkey hkey'
    obtain ⟨r, hr, rfl⟩ := hdropped.mem_keys.1 hkey
    obtain ⟨⟨s', hs', hr'⟩, hnot⟩ := (hholds r).1 hr
    obtain ⟨s, hs, hsame⟩ := List.mem_map.1 hkey'
    obtain ⟨hs, hfrees⟩ := List.mem_filter.1 hs
    have hslot : s' = s := List.inj_on_of_nodup_map hformed.keys hs' hs
      ((hformed.ofKey s' hs' r hr').symm.trans hsame.symm)
    exact hnot (hfreed s hs hfrees r (hslot ▸ hr'))
  have hsubset : after.map Slot.key ++ (h.held.filter (frees read)).map Slot.key ⊆ h.held.map Slot.key := by
    intro key hkey
    rcases List.mem_append.1 hkey with hkey | hkey
    · obtain ⟨r, hr, rfl⟩ := hdropped.mem_keys.1 hkey
      exact hformed.mem_keys.2 ⟨r, ((hholds r).1 hr).1, rfl⟩
    · obtain ⟨s, hs, rfl⟩ := List.mem_map.1 hkey
      exact List.mem_map_of_mem (List.mem_of_mem_filter hs)
  have hlength := (List.subperm_of_subset hnodup hsubset).length_le
  rwa [List.length_append, List.length_map, List.length_map, List.length_map,
    ← List.countP_eq_length_filter] at hlength

/-- What a read that takes a slot does to the others. -/
structure Took (h h' : HeavyReads) (read : HeavyRead) (stopped : List HeavyRead) : Prop where
  slots : h'.slots = h.slots
  formed : WellFormed h'.held
  once : stopped.Nodup
  stops : ∀ x, x ∈ stopped ↔
    Holds h.held x ∧ read.owner ≠ "" ∧ x.owner = read.owner ∧ x.key ≠ read.key
  holds : ∀ x, Holds h'.held x ↔ Holds h.held x ∧ x ∉ stopped ∨ x = read
  bound : 0 < h.slots → h.held.length ≤ h.slots → h'.held.length ≤ h'.slots

/-- A read that takes a share drops those it replaces and is added. -/
theorem HeavyReads.take_eq_some (hformed : WellFormed h.held) (hread : ¬ Holds h.held read)
    (htake : h.take read = some (h', stopped)) : Took h h' read stopped := by
  unfold HeavyReads.take at htake
  simp only at htake
  split at htake
  · cases htake
  next hfree =>
    obtain ⟨rfl, rfl⟩ := Prod.mk.inj (Option.some.inj htake)
    obtain ⟨hdropped, hholds⟩ := wellFormed_drops hformed (h.held.flatMap (replacedIn read))
    have hnot : ¬ Holds ((h.held.flatMap (replacedIn read)).foldl drop h.held) read := fun hmem =>
      hread ((hholds read).1 hmem).1
    obtain ⟨hadded, hadds, hlength⟩ := wellFormed_add hdropped hnot
    have hcount := @WellFormed.length_drops h read hformed
    refine ⟨rfl, hadded, hformed.nodup_replaced, fun x => hformed.mem_replaced, fun x => ?_, ?_⟩
    · rw [hadds x, hholds x]
    · intro hslots hbound
      simp only [hlength]
      split
      · omega
      next hnew =>
        -- A key that no slot has after the others gave theirs back, no slot had before.
        have hkey : h.held.any (·.key = read.key) = false := by
          by_contra hany
          obtain ⟨r, hr, hsame⟩ := hformed.mem_keys.1 (any_key.1 (by simpa using hany))
          refine hnew (any_key.2 (hdropped.mem_keys.2 ⟨r, (hholds r).2 ⟨hr, fun hmem => ?_⟩, hsame⟩))
          exact (hformed.mem_replaced.1 hmem).2.2.2 hsame
        have hless : ¬ h.slots ≤ h.held.length - h.held.countP (frees read) := fun hle =>
          hfree ⟨hslots, hkey, hle⟩
        omega

end Takes

end SolidTrace.LogReads
