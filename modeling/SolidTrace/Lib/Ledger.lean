import SolidTrace.Lib.SortedHistory

/-!
# Storing a history exactly once

Entries of increasing keys are written to a history and moved to a store that remembers the tokens
of the inserts it has taken. A reader records the range past its cursor that it is about to
insert, inserts it under a token made from the range, as often as it takes, and then moves its
cursor past the range. The store then holds the rows of the history up to a frontier, each once:
up to the cursor, or up to the end of the recorded range once its token is taken.
-/

namespace Ledger

open SortedHistory

/-- The entries past `after` up to and including `upTo`. -/
structure Range (α K : Type*) where
  after : K
  upTo : K
  items : List α
deriving DecidableEq

/-- What was written, how far it is read, the range being inserted, and what the store holds. -/
structure State (α K R : Type*) where
  history : List α
  cursor : K
  recorded : Option (Range α K)
  tokens : List (K × K)
  stored : List R

variable {α K R : Type*} [LinearOrder K] (key : α → K) (rows : α → List R)

/-- A range is what its two keys cut out of the history. -/
structure IsRange (history : List α) (range : Range α K) : Prop where
  nonempty : range.after < range.upTo
  items : range.items = between key history range.after range.upTo

namespace State

/-- How far the store holds the history. -/
def frontier (l : State α K R) : K :=
  match l.recorded with
  | some range => if (range.after, range.upTo) ∈ l.tokens then range.upTo else l.cursor
  | none => l.cursor

/-- Write an entry. -/
def append (l : State α K R) (x : α) : State α K R := { l with history := l.history ++ [x] }

/-- Record a range. -/
def record (l : State α K R) (range : Range α K) : State α K R := { l with recorded := some range }

/-- Insert a range's rows. The store drops an insert whose token it has taken, and is not asked to
insert nothing. -/
def insert (l : State α K R) (range : Range α K) : State α K R :=
  if range.items.flatMap rows = [] ∨ (range.after, range.upTo) ∈ l.tokens then l
  else { l with
    tokens := (range.after, range.upTo) :: l.tokens
    stored := l.stored ++ range.items.flatMap rows }

/-- Move the cursor past a range. -/
def move (l : State α K R) (range : Range α K) : State α K R :=
  { l with cursor := range.upTo, recorded := none }

/-- The store has a range's rows: it took its token, or there are none. -/
def Stored (l : State α K R) (range : Range α K) : Prop :=
  (range.after, range.upTo) ∈ l.tokens ∨ range.items.flatMap rows = []

/-- What ties the history, the cursor, the recorded range and the tokens to the store. -/
structure Inv (l : State α K R) : Prop where
  /-- The history is in key order. -/
  increasing : Increasing key l.history
  /-- A recorded range starts at the cursor. -/
  recorded : ∀ range, l.recorded = some range → range.after = l.cursor ∧ IsRange key l.history range
  /-- A token taken is behind the cursor, or is the recorded range's. -/
  tokens : ∀ t ∈ l.tokens, t.1 < t.2 ∧ (t.2 ≤ l.cursor ∨
    ∃ range, l.recorded = some range ∧ t = (range.after, range.upTo))
  /-- The store holds the history up to the frontier. -/
  stored : l.stored = (upTo key l.history l.frontier).flatMap rows

variable {key rows}

/-- The frontier is at the cursor or past it. -/
theorem Inv.cursor_le_frontier {l : State α K R} (hinv : Inv key rows l) :
    l.cursor ≤ l.frontier := by
  rw [frontier]
  cases hrec : l.recorded with
  | none => exact le_rfl
  | some range =>
    obtain ⟨hafter, hrange⟩ := hinv.recorded range hrec
    dsimp only
    split
    · exact hafter ▸ hrange.nonempty.le
    · exact le_rfl

/-- Only the rows of what is stored matter. -/
theorem Inv.congr_rows {l : State α K R} (hinv : Inv key rows l) {rows' : α → List R}
    (hrows : ∀ x ∈ upTo key l.history l.frontier, rows x = rows' x) : Inv key rows' l where
  increasing := hinv.increasing
  recorded := hinv.recorded
  tokens := hinv.tokens
  stored := hinv.stored.trans (List.flatMap_congr hrows)

/-- Without a recorded range, no token reaches past the cursor. -/
theorem Inv.token_not_mem {l : State α K R} (hinv : Inv key rows l) (hrec : l.recorded = none)
    (range : Range α K) (hafter : range.after = l.cursor) (hrange : range.after < range.upTo) :
    (range.after, range.upTo) ∉ l.tokens := by
  intro hmem
  rcases (hinv.tokens _ hmem).2 with hle | ⟨other, hother, _⟩
  · exact absurd (hafter ▸ hrange) hle.not_gt
  · simp [hrec] at hother

/-- Nothing is stored of nothing. -/
theorem Inv.empty (bottom : K) : Inv key rows (⟨[], bottom, none, [], []⟩ : State α K R) where
  increasing := List.Pairwise.nil
  recorded := by simp
  tokens := by simp
  stored := rfl

/-- Writing an entry past every entry, the cursor and the recorded range keeps the invariant. -/
theorem Inv.append {l : State α K R} (hinv : Inv key rows l) (x : α)
    (hhistory : ∀ y ∈ l.history, key y < key x) (hcursor : l.cursor < key x)
    (hrecorded : ∀ range, l.recorded = some range → range.upTo < key x) :
    Inv key rows (l.append x) where
  increasing := hinv.increasing.append hhistory
  recorded := by
    intro range hrec
    obtain ⟨hafter, hrange⟩ := hinv.recorded range hrec
    refine ⟨hafter, hrange.nonempty, hrange.items.trans ?_⟩
    exact (between_append_of_lt (hrecorded range hrec)).symm
  tokens := hinv.tokens
  stored := by
    have hfrontier : l.frontier < key x := by
      rw [frontier]
      cases hrec : l.recorded with
      | none => exact hcursor
      | some range =>
        dsimp only
        split
        · exact hrecorded range hrec
        · exact hcursor
    change l.stored = (upTo key (l.history ++ [x]) l.frontier).flatMap rows
    rw [upTo_append_of_lt hfrontier, hinv.stored]

/-- Recording the next range keeps the invariant. -/
theorem Inv.record {l : State α K R} (hinv : Inv key rows l) (hnone : l.recorded = none)
    (range : Range α K) (hafter : range.after = l.cursor) (hrange : IsRange key l.history range) :
    Inv key rows (l.record range) where
  increasing := hinv.increasing
  recorded := by
    intro other hother
    obtain rfl := Option.some.inj hother
    exact ⟨hafter, hrange⟩
  tokens := by
    intro t ht
    obtain ⟨hlt, hbehind⟩ := hinv.tokens t ht
    refine ⟨hlt, Or.inl (hbehind.resolve_right ?_)⟩
    rintro ⟨other, hother, _⟩
    simp [hnone] at hother
  stored := by
    have hfrontier : (l.record range).frontier = l.frontier := by
      rw [frontier, frontier, hnone]
      exact if_neg (hinv.token_not_mem hnone range hafter hrange.nonempty)
    rw [hfrontier]
    exact hinv.stored

/-- Inserting the recorded range keeps the invariant. -/
theorem Inv.insert {l : State α K R} (hinv : Inv key rows l) (range : Range α K)
    (hrec : l.recorded = some range) : Inv key rows (l.insert rows range) := by
  rw [State.insert]
  split
  · exact hinv
  · rename_i hnew
    obtain ⟨_, htoken⟩ := not_or.mp hnew
    obtain ⟨hafter, hrange⟩ := hinv.recorded range hrec
    refine ⟨hinv.increasing, hinv.recorded, ?_, ?_⟩
    · intro t ht
      rcases List.mem_cons.mp ht with rfl | ht
      · exact ⟨hrange.nonempty, Or.inr ⟨range, hrec, rfl⟩⟩
      · exact hinv.tokens t ht
    · have hbefore : l.frontier = l.cursor := by simp [frontier, hrec, htoken]
      have hstored := hinv.stored
      rw [hbefore] at hstored
      have hforward : l.cursor ≤ range.upTo := hafter ▸ hrange.nonempty.le
      have hitems : range.items = between key l.history l.cursor range.upTo := hafter ▸ hrange.items
      simp only [frontier, hrec, List.mem_cons, true_or, if_true, hstored]
      rw [hitems, ← upTo_append_between hinv.increasing hforward, List.flatMap_append]

/-- An insert that is done has stored the range. -/
theorem stored_insert (l : State α K R) (range : Range α K) :
    (l.insert rows range).Stored rows range := by
  rw [State.insert]
  split
  · rename_i h
    exact h.symm
  · exact Or.inl List.mem_cons_self

/-- Moving the cursor past the recorded range, once it is stored, keeps the invariant. -/
theorem Inv.move {l : State α K R} (hinv : Inv key rows l) (range : Range α K)
    (hrec : l.recorded = some range) (hstored : l.Stored rows range) :
    Inv key rows (l.move range) := by
  obtain ⟨hafter, hrange⟩ := hinv.recorded range hrec
  have hforward : l.cursor < range.upTo := hafter ▸ hrange.nonempty
  refine ⟨hinv.increasing, by simp [State.move], ?_, ?_⟩
  · intro t ht
    obtain ⟨hlt, hbehind⟩ := hinv.tokens t ht
    refine ⟨hlt, Or.inl ?_⟩
    rcases hbehind with hle | ⟨other, hother, rfl⟩
    · exact hle.trans hforward.le
    · obtain rfl := Option.some.inj (hrec.symm.trans hother)
      exact le_rfl
  · change l.stored = (upTo key l.history range.upTo).flatMap rows
    rw [hinv.stored, frontier, hrec]
    dsimp only
    split
    · rfl
    · rename_i htoken
      have hnone : range.items.flatMap rows = [] := hstored.resolve_left htoken
      rw [hrange.items, hafter] at hnone
      rw [← upTo_append_between hinv.increasing hforward.le, List.flatMap_append, hnone,
        List.append_nil]

end State

/-- Where every row names its entry's key, the rows of an entry among an increasing history's are
the entry's own. -/
theorem filter_flatMap_owner {owner : R → K} (howner : ∀ x, ∀ r ∈ rows x, owner r = key x)
    {l : List α} (hl : Increasing key l) (x : α) (hx : x ∈ l) :
    (l.flatMap rows).filter (fun r => owner r = key x) = rows x := by
  induction l with
  | nil => simp at hx
  | cons y rest ih =>
    obtain ⟨hfirst, hrest⟩ := List.pairwise_cons.mp hl
    rw [List.flatMap_cons, List.filter_append]
    rcases List.mem_cons.mp hx with rfl | hx
    · have hself : (rows x).filter (fun r => owner r = key x) = rows x :=
        List.filter_eq_self.mpr fun r hr => by simp [howner x r hr]
      have hnone : (rest.flatMap rows).filter (fun r => owner r = key x) = [] := by
        refine List.filter_eq_nil_iff.mpr fun r hr => ?_
        obtain ⟨y, hy, hr⟩ := List.mem_flatMap.mp hr
        simpa [howner y r hr] using (hfirst y hy).ne'
      rw [hself, hnone, List.append_nil]
    · have hnone : (rows y).filter (fun r => owner r = key x) = [] := by
        refine List.filter_eq_nil_iff.mpr fun r hr => ?_
        simpa [howner y r hr] using (hfirst x hx).ne
      rw [hnone, List.nil_append, ih hrest hx]

/-- The rows of the entries up to a key are the rows that name a key up to it. -/
theorem filter_flatMap_owner_le {owner : R → K} (howner : ∀ x, ∀ r ∈ rows x, owner r = key x)
    (l : List α) (c : K) :
    (l.flatMap rows).filter (fun r => owner r ≤ c) = (upTo key l c).flatMap rows := by
  induction l with
  | nil => rfl
  | cons x rest ih =>
    rw [List.flatMap_cons, List.filter_append, ih]
    by_cases hx : key x ≤ c
    · have hself : (rows x).filter (fun r => owner r ≤ c) = rows x :=
        List.filter_eq_self.mpr fun r hr => by simp [howner x r hr, hx]
      simp [upTo, hx, hself]
    · have hnone : (rows x).filter (fun r => owner r ≤ c) = [] :=
        List.filter_eq_nil_iff.mpr fun r hr => by simp [howner x r hr, hx]
      simp [upTo, hx, hnone]

/-- An entry that is not among them has no row there. -/
theorem filter_flatMap_owner_of_not_mem {owner : R → K}
    (howner : ∀ x, ∀ r ∈ rows x, owner r = key x) (l : List α) (k : K)
    (hk : ∀ y ∈ l, key y ≠ k) : (l.flatMap rows).filter (fun r => owner r = k) = [] := by
  refine List.filter_eq_nil_iff.mpr fun r hr => ?_
  obtain ⟨y, hy, hr⟩ := List.mem_flatMap.mp hr
  simpa [howner y r hr] using hk y hy

end Ledger
