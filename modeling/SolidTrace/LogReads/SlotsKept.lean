import Mathlib.Data.List.GetD
import Mathlib.Data.String.Basic
import SolidTrace.Lib.Transition
import SolidTrace.LogReads.HeavyReads

/-!
# Heavy reads keep to their slots

Over any calls of `HeavyReads`, the slots held never pass their number, each read gives its share back
once, and a read with an owner stops the owner's others and no one else's, as long as the ranges of
the reads are of times that an int64 of nanoseconds holds. Past these, two ranges have one key.
-/

namespace SolidTrace.LogReads

open Storage Transition

section Keys

/-- Two texts are the same up to the first of a character, and after it. -/
theorem append_cons_inj {c : Char} {a b u v : List Char} (ha : c ∉ a) (hb : c ∉ b) :
    a ++ c :: u = b ++ c :: v ↔ a = b ∧ u = v := by
  induction a generalizing b with
  | nil =>
    cases b with
    | nil => simp
    | cons d b =>
      have hne : c ≠ d := fun h => hb (h ▸ List.mem_cons_self)
      simp [hne]
  | cons d a ih =>
    have hne : d ≠ c := fun h => ha (h ▸ List.mem_cons_self)
    cases b with
    | nil => simp [hne]
    | cons d' b =>
      rw [List.cons_append, List.cons_append, List.cons.injEq, ih (fun h => ha (List.mem_cons_of_mem _ h))
        (fun h => hb (List.mem_cons_of_mem _ h)), List.cons.injEq, and_assoc]

/-- A number is written without a space. -/
theorem space_notMem_natRepr (n : ℕ) : ' ' ∉ n.repr.toList := by
  intro hmem
  rw [Nat.toList_repr] at hmem
  have hdigit := Nat.isDigit_of_mem_toDigits (by decide) (by decide) hmem
  revert hdigit
  decide

/-- A negative number is written with a sign. -/
theorem toList_intRepr_negSucc (n : ℕ) : (Int.negSucc n).repr.toList = '-' :: (n + 1).repr.toList := by
  change ("-" ++ (n + 1).repr).toList = _
  rw [String.toList_append]
  rfl

/-- A number of either sign is written without a space. -/
theorem space_notMem_intRepr (n : ℤ) : ' ' ∉ n.repr.toList := by
  cases n with
  | ofNat m => exact space_notMem_natRepr m
  | negSucc m =>
    rw [toList_intRepr_negSucc, List.mem_cons, not_or]
    exact ⟨by decide, space_notMem_natRepr _⟩

/-- Numbers written alike are one. -/
theorem natRepr_injective {m n : ℕ} (h : m.repr.toList = n.repr.toList) : m = n := by
  rw [Nat.toList_repr, Nat.toList_repr] at h
  have hvalue := congrArg (Nat.ofDigitChars 10 · 0) h
  simpa using hvalue

/-- A number that is not negative is written without a sign. -/
theorem minus_notMem_natRepr (n : ℕ) : '-' ∉ n.repr.toList := by
  intro hmem
  rw [Nat.toList_repr] at hmem
  have hdigit := Nat.isDigit_of_mem_toDigits (by decide) (by decide) hmem
  revert hdigit
  decide

/-- Numbers of either sign written alike are one. -/
theorem intRepr_injective {m n : ℤ} (h : m.repr.toList = n.repr.toList) : m = n := by
  cases m with
  | ofNat m =>
    cases n with
    | ofNat n => exact congrArg Int.ofNat (natRepr_injective h)
    | negSucc n =>
      rw [toList_intRepr_negSucc] at h
      exact absurd (h ▸ List.mem_cons_self) (minus_notMem_natRepr m)
  | negSucc m =>
    rw [toList_intRepr_negSucc] at h
    cases n with
    | ofNat n => exact absurd (h ▸ List.mem_cons_self) (minus_notMem_natRepr n)
    | negSucc n =>
      rw [toList_intRepr_negSucc] at h
      have hsucc := natRepr_injective (List.cons.inj h).2
      rw [Nat.succ.inj hsucc]

/-- A slot's key is its three numbers, spaces between them. -/
theorem toList_slotKey (of : ReadOf) : (slotKey of).toList = of.project.val.repr.toList ++
    ' ' :: ((unixNano of.fromTime).repr.toList ++
      ' ' :: ((unixNano of.toTime).repr.toList ++ ' ' :: of.query.toList)) := by
  have hkey : slotKey of = of.project.val.repr ++ " " ++ (unixNano of.fromTime).repr ++ " " ++
      (unixNano of.toTime).repr ++ " " ++ of.query := rfl
  rw [hkey]
  simp [String.toList_append]

/-- A range of times that an int64 of nanoseconds holds. -/
def ReadOf.InRange (of : ReadOf) : Prop :=
  (-2 ^ 63 ≤ of.fromTime ∧ of.fromTime < 2 ^ 63) ∧ -2 ^ 63 ≤ of.toTime ∧ of.toTime < 2 ^ 63

/-- A time of the years that nanoseconds count is counted exactly. -/
theorem unixNano_eq {t : ℤ} (h : -2 ^ 63 ≤ t ∧ t < 2 ^ 63) : unixNano t = t := by
  unfold unixNano
  rw [Int.bmod_eq_of_le] <;> omega

/-- The keys of two reads are the same when what they read has the same times as int64s. -/
theorem slotKey_eq_iff {of of' : ReadOf} : slotKey of = slotKey of' ↔ of.project = of'.project ∧
    unixNano of.fromTime = unixNano of'.fromTime ∧ unixNano of.toTime = unixNano of'.toTime ∧
    of.query = of'.query := by
  rw [← String.toList_inj, toList_slotKey, toList_slotKey,
    append_cons_inj (space_notMem_natRepr _) (space_notMem_natRepr _),
    append_cons_inj (space_notMem_intRepr _) (space_notMem_intRepr _),
    append_cons_inj (space_notMem_intRepr _) (space_notMem_intRepr _)]
  constructor
  · rintro ⟨hproject, hfrom, hto, hquery⟩
    exact ⟨Fin.ext (natRepr_injective hproject), intRepr_injective hfrom, intRepr_injective hto,
      String.toList_inj.1 hquery⟩
  · rintro ⟨hproject, hfrom, hto, hquery⟩
    rw [hproject, hfrom, hto, hquery]
    exact ⟨rfl, rfl, rfl, rfl⟩

/-- Two reads share a slot's key when they are of one Project and range. -/
theorem slotKey_inj {of of' : ReadOf} (h : of.InRange) (h' : of'.InRange) :
    slotKey of = slotKey of' ↔ of = of' := by
  rw [slotKey_eq_iff, unixNano_eq h.1, unixNano_eq h.2, unixNano_eq h'.1, unixNano_eq h'.2]
  constructor
  · rintro ⟨hproject, hfrom, hto, hquery⟩
    cases of
    cases of'
    simp only at hproject hfrom hto hquery
    rw [hproject, hfrom, hto, hquery]
  · rintro rfl
    exact ⟨rfl, rfl, rfl, rfl⟩

end Keys

section Calls

/-- A read that was given a slot. -/
structure Grant where
  owner : String
  of : ReadOf
deriving DecidableEq

/-- The reads given a slot, in order, and of these the numbers of those stopped and of those whose
release was called: none of these is kept. -/
structure System where
  reads : HeavyReads
  granted : List Grant
  stopped : List ℕ
  released : List ℕ
deriving DecidableEq

/-- A call of `Take`, `Replace` or a read's release. -/
inductive Call where
  | take (of : ReadOf)
  | replace (owner : String) (of : ReadOf)
  | release (number : ℕ)
deriving DecidableEq

def Grant.read (g : Grant) (number : ℕ) : HeavyRead := ⟨number, slotKey g.of, g.owner⟩

/-- No slot held yet. -/
def System.init (slots : ℕ) : System := ⟨⟨slots, []⟩, [], [], []⟩

/-- Take a slot for a read, or refuse it. -/
def System.take (s : System) (g : Grant) : System :=
  match s.reads.take (g.read s.granted.length) with
  | none => s
  | some (reads, stopped) =>
    ⟨reads, s.granted ++ [g], s.stopped ++ stopped.map HeavyRead.number, s.released⟩

/-- A call. Only a read that was given a slot has a release. -/
def step (s : System) : Call → Option System
  | .take of => some (s.take ⟨"", of⟩)
  | .replace owner of => some (s.take ⟨owner, of⟩)
  | .release n => s.granted[n]?.map fun g =>
    { s with
      reads := { s.reads with held := drop s.reads.held (g.read n) }
      released := s.released ++ [n] }

/-- The call's range is of times that an int64 of nanoseconds holds. -/
def InRange (_ : System) : Call → Prop
  | .take of => of.InRange
  | .replace _ of => of.InRange
  | .release _ => True

end Calls

section Kept

/-- A read has a share of a slot. -/
def System.HasShare (s : System) (n : ℕ) : Prop :=
  ∃ g, s.granted[n]? = some g ∧ Holds s.reads.held (g.read n)

/-- What holds of the slots after any calls. -/
structure SlotsKept (s : System) : Prop where
  bound : s.reads.held.length ≤ s.reads.slots
  /-- No read is stopped twice. -/
  once : s.stopped.Nodup
  /-- A read has its share until it is released or stopped. -/
  shares : ∀ n, s.HasShare n ↔ n < s.granted.length ∧ n ∉ s.released ∧ n ∉ s.stopped
  /-- No slot is held once every read is released or stopped. -/
  freed : (∀ n < s.granted.length, n ∈ s.released ∨ n ∈ s.stopped) → s.reads.held = []

/-- What a call does. -/
structure CallKept (s : System) (call : Call) (s' : System) : Prop where
  /-- A call that is refused changes nothing. -/
  refused : s'.granted = s.granted → (∀ n, call ≠ .release n) → s' = s
  /-- A `Replace` that succeeds stops its owner's reads of other Queries or ranges, and no other call
  stops any. An empty owner is none. -/
  stops : ∀ n, n ∈ s'.stopped ↔ n ∈ s.stopped ∨ ∃ owner of g, call = .replace owner of ∧ owner ≠ "" ∧
    s'.granted ≠ s.granted ∧ s.granted[n]? = some g ∧ s.HasShare n ∧ g.owner = owner ∧ g.of ≠ of
  /-- A read gives its share back when it is released or stopped, and has it from when it is given a
  slot. -/
  shares : ∀ n, s'.HasShare n ↔ s.HasShare n ∧ call ≠ .release n ∧ n ∉ s'.stopped ∨
    n = s.granted.length ∧ s'.granted ≠ s.granted
  /-- A release of a read that has no share gives back none. -/
  late : ∀ n, call = .release n → ¬ s.HasShare n → s'.reads = s.reads

/-- What ties the slots to the calls made. -/
structure Inv (s : System) : Prop where
  formed : WellFormed s.reads.held
  bound : s.reads.held.length ≤ s.reads.slots
  positive : 0 < s.reads.slots
  once : s.stopped.Nodup
  granted : ∀ r, Holds s.reads.held r → ∃ g, s.granted[r.number]? = some g ∧ r = g.read r.number
  shares : ∀ n g, s.granted[n]? = some g →
    (Holds s.reads.held (g.read n) ↔ n ∉ s.released ∧ n ∉ s.stopped)
  known : ∀ n ∈ s.released ++ s.stopped, n < s.granted.length
  inRange : ∀ g ∈ s.granted, g.of.InRange

/-- The invariant holds before any read. -/
theorem Inv.init {slots : ℕ} (hslots : 0 < slots) : Inv (.init slots) where
  formed := .nil
  bound := Nat.zero_le _
  positive := hslots
  once := List.nodup_nil
  granted := by simp [System.init, Holds]
  shares := by simp [System.init]
  known := by simp [System.init]
  inRange := by simp [System.init]

variable {s s' : System}

/-- A read not given yet has no share. -/
theorem Inv.not_holds_next (h : Inv s) (g : Grant) : ¬ Holds s.reads.held (g.read s.granted.length) := by
  intro hholds
  obtain ⟨g', hg', -⟩ := h.granted _ hholds
  simp [Grant.read] at hg'

/-- A read has its share when it was granted and neither released nor stopped. -/
theorem Inv.hasShare_iff (h : Inv s) {n : ℕ} :
    s.HasShare n ↔ n < s.granted.length ∧ n ∉ s.released ∧ n ∉ s.stopped := by
  constructor
  · rintro ⟨g, hg, hholds⟩
    exact ⟨(List.getElem?_eq_some_iff.1 hg).1, (h.shares n g hg).1 hholds⟩
  · rintro ⟨hn, hkept⟩
    have hg := List.getElem?_eq_getElem hn
    exact ⟨_, hg, (h.shares n _ hg).2 hkept⟩

/-- The invariant keeps the slots. -/
theorem Inv.kept (h : Inv s) : SlotsKept s where
  bound := h.bound
  once := h.once
  shares _ := h.hasShare_iff
  freed hall := by
    by_contra hne
    obtain ⟨slot, hslot⟩ := List.exists_mem_of_ne_nil _ hne
    obtain ⟨r, hr⟩ := List.exists_mem_of_ne_nil _ (h.formed.nonempty slot hslot)
    obtain ⟨g, hg, hread⟩ := h.granted r ⟨slot, hslot, hr⟩
    have hkept := (h.shares _ g hg).1 (hread ▸ ⟨slot, hslot, hr⟩)
    rcases hall _ (List.getElem?_eq_some_iff.1 hg).1 with hn | hn
    · exact hkept.1 hn
    · exact hkept.2 hn

/-- A read is refused, and nothing changes, or takes a slot. -/
theorem Inv.take_cases (h : Inv s) (g : Grant) : s.take g = s ∨ ∃ reads stopped,
    Took s.reads reads (g.read s.granted.length) stopped ∧
      s.take g = ⟨reads, s.granted ++ [g], s.stopped ++ stopped.map HeavyRead.number, s.released⟩ := by
  unfold System.take
  cases htake : s.reads.take (g.read s.granted.length) with
  | none => exact .inl rfl
  | some taken =>
    obtain ⟨reads, stopped⟩ := taken
    exact .inr ⟨reads, stopped, HeavyReads.take_eq_some h.formed (h.not_holds_next g) htake, rfl⟩

/-- The reads that a read stops are told by their numbers. -/
theorem Inv.mem_stopped (h : Inv s) {reads : HeavyReads} {read : HeavyRead} {stopped : List HeavyRead}
    (htook : Took s.reads reads read stopped) {n : ℕ} {g : Grant} (hg : s.granted[n]? = some g) :
    n ∈ stopped.map HeavyRead.number ↔ g.read n ∈ stopped := by
  rw [List.mem_map]
  constructor
  · rintro ⟨r, hr, rfl⟩
    obtain ⟨g', hg', hread⟩ := h.granted r ((htook.stops r).1 hr).1
    obtain rfl : g = g' := Option.some.inj (hg.symm.trans hg')
    exact hread ▸ hr
  · intro hr
    exact ⟨_, hr, rfl⟩

/-- Granting a share keeps the invariant. -/
theorem Inv.take (h : Inv s) {g : Grant} (hg : g.of.InRange) : Inv (s.take g) := by
  rcases h.take_cases g with hsame | ⟨reads, stopped, htook, hnext⟩
  · rw [hsame]
    exact h
  have hstopped : ∀ n ∈ stopped.map HeavyRead.number,
      n < s.granted.length ∧ n ∉ s.released ∧ n ∉ s.stopped := by
    intro n hn
    obtain ⟨r, hr, rfl⟩ := List.mem_map.1 hn
    have hholds := ((htook.stops r).1 hr).1
    obtain ⟨g', hg', hread⟩ := h.granted r hholds
    exact h.hasShare_iff.1 ⟨g', hg', hread ▸ hholds⟩
  have hnodup : (stopped.map HeavyRead.number).Nodup := by
    refine htook.once.map_on fun r hr r' hr' hnumber => ?_
    obtain ⟨g₁, hg₁, hread₁⟩ := h.granted r ((htook.stops r).1 hr).1
    obtain ⟨g₂, hg₂, hread₂⟩ := h.granted r' ((htook.stops r').1 hr').1
    rw [hnumber] at hg₁ hread₁
    obtain rfl : g₁ = g₂ := Option.some.inj (hg₁.symm.trans hg₂)
    exact hread₁.trans hread₂.symm
  rw [hnext]
  refine ⟨htook.formed, htook.bound h.positive h.bound, htook.slots ▸ h.positive, ?_, ?_, ?_, ?_, ?_⟩
  · exact h.once.append hnodup fun n hn hn' => (hstopped n hn').2.2 hn
  · intro r hr
    rcases (htook.holds r).1 hr with ⟨hr, -⟩ | rfl
    · obtain ⟨g', hg', hread⟩ := h.granted r hr
      refine ⟨g', ?_, hread⟩
      rw [List.getElem?_append_left (List.getElem?_eq_some_iff.1 hg').1, hg']
    · exact ⟨g, by simp [Grant.read], rfl⟩
  · intro n g' hg'
    rw [List.getElem?_append] at hg'
    split at hg'
    next hn =>
      have hne : g'.read n ≠ g.read s.granted.length := by
        intro hsame
        have hnumber := congrArg HeavyRead.number hsame
        simp only [Grant.read] at hnumber
        omega
      rw [htook.holds, or_iff_left hne, h.shares n g' hg', ← h.mem_stopped htook hg', List.mem_append,
        not_or, and_assoc]
    next hn =>
      have hlast : n = s.granted.length ∧ g' = g := by
        obtain ⟨hlt, hlast⟩ := List.getElem?_eq_some_iff.1 hg'
        simp only [List.length_singleton, Nat.lt_one_iff] at hlt
        refine ⟨by omega, ?_⟩
        simpa using hlast.symm
      obtain ⟨rfl, rfl⟩ := hlast
      have hnew : ∀ n ∈ s.released ++ (s.stopped ++ stopped.map HeavyRead.number), n < s.granted.length := by
        intro n hn
        rw [← List.append_assoc] at hn
        rcases List.mem_append.1 hn with hn | hn
        · exact h.known n hn
        · exact (hstopped n hn).1
      simp only [htook.holds, or_true, true_iff]
      exact ⟨fun hmem => absurd (hnew _ (List.mem_append_left _ hmem)) (lt_irrefl _),
        fun hmem => absurd (hnew _ (List.mem_append_right _ hmem)) (lt_irrefl _)⟩
  · intro n hn
    rw [List.length_append, List.length_singleton]
    rw [← List.append_assoc] at hn
    rcases List.mem_append.1 hn with hn | hn
    · exact (h.known n hn).trans (Nat.lt_succ_self _)
    · exact (hstopped n hn).1.trans (Nat.lt_succ_self _)
  · intro g' hg'
    rcases List.mem_append.1 hg' with hg' | hg'
    · exact h.inRange g' hg'
    · rw [List.mem_singleton.1 hg']
      exact hg

/-- A release gives back its read's share. -/
theorem Inv.holds_drop (h : Inv s) {n m : ℕ} {g g' : Grant} (hg : s.granted[n]? = some g)
    (hg' : s.granted[m]? = some g') :
    Holds (drop s.reads.held (g.read n)) (g'.read m) ↔ Holds s.reads.held (g'.read m) ∧ m ≠ n := by
  rw [LogReads.holds_drop h.formed]
  refine and_congr_right fun _ => not_congr ?_
  constructor
  · intro hsame
    exact congrArg HeavyRead.number hsame
  · rintro rfl
    obtain rfl : g' = g := Option.some.inj (hg'.symm.trans hg)
    rfl

/-- Releasing a share keeps the invariant. -/
theorem Inv.release (h : Inv s) {n : ℕ} {g : Grant} (hg : s.granted[n]? = some g) :
    Inv { s with
      reads := { s.reads with held := drop s.reads.held (g.read n) }
      released := s.released ++ [n] } where
  formed := wellFormed_drop h.formed _
  bound := by
    refine le_trans ?_ h.bound
    unfold drop
    exact (List.length_filter_le _ _).trans (List.length_map _).le
  positive := h.positive
  once := h.once
  granted r hr := h.granted r ((LogReads.holds_drop h.formed).1 hr).1
  shares m g' hg' := by
    rw [h.holds_drop hg hg', h.shares m g' hg', List.mem_append, List.mem_singleton]
    tauto
  known m hm := by
    rcases List.mem_append.1 hm with hm | hm
    · rcases List.mem_append.1 hm with hm | hm
      · exact h.known m (List.mem_append_left _ hm)
      · rw [List.mem_singleton.1 hm]
        exact (List.getElem?_eq_some_iff.1 hg).1
    · exact h.known m (List.mem_append_right _ hm)
  inRange := h.inRange

/-- What a read that asks for a slot does to the reads before it. -/
theorem Inv.take_kept (h : Inv s) {g : Grant} (hg : g.of.InRange) :
    ((s.take g).granted = s.granted → s.take g = s) ∧
    (∀ n, n ∈ (s.take g).stopped ↔ n ∈ s.stopped ∨ g.owner ≠ "" ∧ (s.take g).granted ≠ s.granted ∧
      ∃ g', s.granted[n]? = some g' ∧ s.HasShare n ∧ g'.owner = g.owner ∧ g'.of ≠ g.of) ∧
    ∀ n, (s.take g).HasShare n ↔ s.HasShare n ∧ n ∉ (s.take g).stopped ∨
      n = s.granted.length ∧ (s.take g).granted ≠ s.granted := by
  have hshares := fun n => (h.take hg).hasShare_iff (n := n)
  rcases h.take_cases g with hsame | ⟨reads, stopped, htook, hnext⟩
  · rw [hsame] at hshares ⊢
    refine ⟨fun _ => rfl, fun n => by simp, fun n => ?_⟩
    have hkept : s.HasShare n → n ∉ s.stopped := fun hn => (h.hasShare_iff.1 hn).2.2
    simp only [ne_eq, not_true_eq_false, and_false, or_false]
    exact ⟨fun hn => ⟨hn, hkept hn⟩, And.left⟩
  · rw [hnext] at hshares ⊢
    have hgrown : s.granted ++ [g] ≠ s.granted := by simp
    refine ⟨fun hsame => absurd hsame hgrown, fun n => ?_, fun n => ?_⟩
    · rw [List.mem_append]
      refine or_congr_right ?_
      constructor
      · intro hn
        obtain ⟨r, hr, rfl⟩ := List.mem_map.1 hn
        obtain ⟨hholds, howner, hsame, hkey⟩ := (htook.stops r).1 hr
        obtain ⟨g', hg', hread⟩ := h.granted r hholds
        refine ⟨howner, hgrown, g', hg', ⟨g', hg', hread ▸ hholds⟩, ?_, fun hof => hkey ?_⟩
        · rw [hread] at hsame
          exact hsame
        · rw [hread]
          exact congrArg slotKey hof
      · rintro ⟨howner, -, g', hg', ⟨g₂, hg₂, hholds⟩, hsame, hof⟩
        obtain rfl : g' = g₂ := Option.some.inj (hg'.symm.trans hg₂)
        refine (h.mem_stopped htook hg').2 ((htook.stops _).2 ⟨hholds, howner, hsame, fun hkey => hof ?_⟩)
        exact (slotKey_inj (h.inRange g' (List.mem_of_getElem? hg')) hg).1 hkey
    · rw [hshares n, h.hasShare_iff]
      simp only [List.length_append, List.length_singleton]
      constructor
      · rintro ⟨hn, hreleased, hstopped⟩
        by_cases hlast : n = s.granted.length
        · exact .inr ⟨hlast, hgrown⟩
        · exact .inl ⟨⟨by omega, hreleased, fun hmem => hstopped (List.mem_append_left _ hmem)⟩, hstopped⟩
      · rintro (⟨⟨hn, hreleased, -⟩, hstopped⟩ | ⟨rfl, -⟩)
        · exact ⟨by omega, hreleased, hstopped⟩
        · -- A number not given yet is neither released nor stopped.
          have hread := (hshares s.granted.length).1 ⟨g, by simp, (htook.holds _).2 (.inr rfl)⟩
          simpa using hread

/-- What a call keeps of the slots' invariant, and what it does. -/
theorem Inv.step (h : Inv s) {call : Call} (hcall : LogReads.InRange s call)
    (hstep : LogReads.step s call = some s') : Inv s' ∧ CallKept s call s' := by
  cases call with
  | take of =>
    obtain rfl := Option.some.inj hstep
    obtain ⟨hrefused, hstops, hshares⟩ := @Inv.take_kept s h ⟨"", of⟩ hcall
    refine ⟨h.take hcall, fun hsame _ => hrefused hsame, fun n => ?_, fun n => ?_, nofun⟩
    · rw [hstops n]
      simp
    · rw [hshares n]
      simp
  | replace owner of =>
    obtain rfl := Option.some.inj hstep
    obtain ⟨hrefused, hstops, hshares⟩ := @Inv.take_kept s h ⟨owner, of⟩ hcall
    refine ⟨h.take hcall, fun hsame _ => hrefused hsame, fun n => ?_, fun n => ?_, nofun⟩
    · rw [hstops n]
      refine or_congr_right ⟨?_, ?_⟩
      · rintro ⟨howner, hgrown, g, hg, hshare, hsame, hof⟩
        exact ⟨owner, of, g, rfl, howner, hgrown, hg, hshare, hsame, hof⟩
      · rintro ⟨owner', of', g, hsame, howner, hgrown, hg, hshare, howners, hof⟩
        obtain ⟨rfl, rfl⟩ := Call.replace.inj hsame
        exact ⟨howner, hgrown, g, hg, hshare, howners, hof⟩
    · rw [hshares n]
      simp
  | release n =>
    obtain ⟨g, hg, rfl⟩ := Option.map_eq_some_iff.1 hstep
    have hinv := h.release hg
    refine ⟨hinv, fun _ hnot => absurd rfl (hnot n), fun m => by simp, fun m => ?_, ?_⟩
    · rw [hinv.hasShare_iff, h.hasShare_iff]
      simp only [List.mem_append, List.mem_singleton, ne_eq, Call.release.injEq, not_true_eq_false, and_false,
        or_false]
      tauto
    · intro m hm hshare
      obtain rfl := Call.release.inj hm
      have hnot : ¬ Holds s.reads.held (g.read n) := fun hholds => hshare ⟨g, hg, hholds⟩
      simp only [drop_of_not_holds h.formed hnot]

end Kept

section Runs

/-- After any calls over ranges that an int64 of nanoseconds holds, the slots held are within their
number, each read has its share until it is first released or stopped, and the next call stops the
reads it replaces and no others. -/
theorem heavyReads_keepSlots {slots : ℕ} (hslots : 0 < slots) {s : System}
    (hrun : Reaches step InRange (.init slots) s) :
    SlotsKept s ∧ ∀ call s', InRange s call → step s call = some s' → CallKept s call s' := by
  have hinv : Inv s := hrun.invariant (.init hslots) fun _ _ _ h hcall hstep => (h.step hcall hstep).1
  exact ⟨hinv.kept, fun _ _ hcall hstep => (hinv.step hcall hstep).2⟩

instance (of : ReadOf) : Decidable of.InRange := inferInstanceAs (Decidable ((_ ∧ _) ∧ _ ∧ _))

instance (s : System) : (call : Call) → Decidable (InRange s call)
  | .take of => inferInstanceAs (Decidable of.InRange)
  | .replace _ of => inferInstanceAs (Decidable of.InRange)
  | .release _ => inferInstanceAs (Decidable True)

private def deadlocks (start : ℤ) : ReadOf := ⟨123, "search \"deadlock\"", start, start + 3600000000000⟩

/-- A user's second read takes the one slot of the first, whose late release gives nothing back. -/
theorem heavyReads_keepSlots_replaced : ∃ s, Reaches step InRange (.init 1) s ∧ s.stopped = [0] ∧
    SlotsKept s ∧ ∀ call s', InRange s call → step s call = some s' → CallKept s call s' := by
  obtain ⟨s, hs⟩ : ∃ s, run step InRange (.init 1)
      [.replace "user 7" (deadlocks 0), .replace "user 7" (deadlocks 1), .release 0] = some s ∧
        s.stopped = [0] := ⟨_, rfl, rfl⟩
  have hrun := reaches_of_run hs.1
  exact ⟨s, hrun, hs.2, heavyReads_keepSlots one_pos hrun⟩

/-- Two ranges 2 ^ 64 nanoseconds apart have one key, so that the second read shares the slot of the
first and leaves it running. -/
theorem not_forall_callKept : ∃ s s', Reaches step (fun _ _ => True) (.init 1) s ∧
    step s (.replace "user 7" (deadlocks (2 ^ 64))) = some s' ∧
    ¬ CallKept s (.replace "user 7" (deadlocks (2 ^ 64))) s' := by
  have hfirst : step (.init 1) (.replace "user 7" (deadlocks 0)) =
      some ((System.init 1).take ⟨"user 7", deadlocks 0⟩) := rfl
  refine ⟨_, _, .single ⟨.replace "user 7" (deadlocks 0), trivial, hfirst⟩, rfl, fun hkept => ?_⟩
  have hstops := (hkept.stops 0).2 (.inr ⟨"user 7", deadlocks (2 ^ 64), ⟨"user 7", deadlocks 0⟩, rfl,
    by decide, by decide +kernel, by decide +kernel, ⟨_, by decide +kernel, _, List.mem_singleton_self _, List.mem_singleton_self _⟩, rfl, by decide +kernel⟩)
  revert hstops
  decide +kernel

end Runs

end SolidTrace.LogReads
