import SolidTrace.Lib.Ledger
import SolidTrace.Lib.WeightedPrefix

/-!
# Reading a history range by range

A reader takes the entries past its cursor up to a weight, records the range it took before it
does anything with it, and moves its cursor past the range at the end. While the recorded range is
past the cursor the reader takes that range again, the same entries between the same keys, because
entries written meanwhile come after it.
-/

namespace RangeReader

open SortedHistory WeightedPrefix Ledger

/-- What was written, what of it is past the cursor in the store, the cursor, the end of the range
last recorded, and that range. -/
@[ext] structure State (α K : Type*) where
  history : List α
  pending : List α
  cursor : K
  recorded : K
  recording : Option (Range α K)

variable {α K R : Type*} [LinearOrder K] (key : α → K) (weight : α → ℕ) (limit : ℕ) (bottom : K)

/-- A range as the reader takes one: it stops once it weighs enough, at its last entry. -/
structure IsRead (history : List α) (range : Range α K) : Prop where
  isRange : IsRange key history range
  whole : takeWeight weight limit 0 range.items = range.items
  last : range.items.getLast?.map key = some range.upTo

namespace State

/-- What the reader takes next, and whether it took it before: the entries past the cursor up to
the limit or, while the end of the recorded range is past the cursor, that range. -/
def next (r : State α K) : Option (Range α K × Bool) :=
  let items := takeWeight weight limit 0 r.pending
  let kept := items.takeWhile fun x => key x ≤ r.recorded
  let again := decide (r.cursor < r.recorded)
  let items := if again then kept else items
  items.getLast?.map fun last => (⟨r.cursor, key last, items⟩, again)

/-- Write an entry. -/
def append (r : State α K) (x : α) : State α K :=
  { r with history := r.history ++ [x], pending := r.pending ++ [x] }

/-- Record a range. -/
def record (r : State α K) (range : Range α K) : State α K :=
  { r with recorded := range.upTo, recording := some range }

/-- Move the cursor past a range. -/
def move (r : State α K) (range : Range α K) : State α K :=
  { r with cursor := range.upTo, pending := past key r.pending range.upTo }

/-- The range that is recorded: the last one, while its end is past the cursor. -/
def held (r : State α K) : Option (Range α K) :=
  if r.cursor < r.recorded then r.recording else none

/-- The reader with a store that holds `stored` and has taken `tokens`, as a ledger. -/
def ledger (r : State α K) (tokens : List (K × K)) (stored : List R) : Ledger.State α K R where
  history := r.history
  cursor := r.cursor
  recorded := r.held
  tokens := tokens
  stored := stored

/-- What holds of a reader. -/
structure Inv (r : State α K) : Prop where
  increasing : Increasing key r.history
  /-- No entry is at the bottom, where a reader starts. -/
  pos : ∀ x ∈ r.history, bottom < key x
  /-- The cursor is at an entry, or at the bottom. -/
  cursor_mem : r.cursor = bottom ∨ ∃ x ∈ r.history, key x = r.cursor
  /-- Every entry past the cursor is still in the store. -/
  pending : r.pending = past key r.history r.cursor
  /-- The range recorded past the cursor is one the reader took. -/
  recorded : r.cursor < r.recorded → ∃ range, r.recording = some range ∧
    range.after = r.cursor ∧ range.upTo = r.recorded ∧ IsRead key weight limit r.history range

end State

variable {key weight limit bottom}

/-- An entry past the range leaves it as it was taken. -/
theorem IsRead.append {history : List α} {range : Range α K}
    (hread : IsRead key weight limit history range) (x : α) (hx : range.upTo < key x) :
    IsRead key weight limit (history ++ [x]) range where
  isRange := ⟨hread.isRange.nonempty, hread.isRange.items.trans (between_append_of_lt hx).symm⟩
  whole := hread.whole
  last := hread.last

/-- A range ends at an entry of the history. -/
theorem IsRead.exists_upTo {history : List α} {range : Range α K}
    (hread : IsRead key weight limit history range) : ∃ x ∈ history, key x = range.upTo := by
  obtain ⟨x, hlast, hkey⟩ := Option.map_eq_some_iff.mp hread.last
  have hmem := List.mem_of_getLast? hlast
  rw [hread.isRange.items] at hmem
  exact ⟨x, (mem_between.mp hmem).1, hkey⟩

namespace State

variable {r : State α K} {range : Range α K}

/-- Nothing written yet. -/
theorem Inv.empty : Inv key weight limit bottom (⟨[], [], bottom, bottom, none⟩ : State α K) where
  increasing := List.Pairwise.nil
  pos := by simp
  cursor_mem := Or.inl rfl
  pending := rfl
  recorded := fun hlt => absurd hlt (lt_irrefl bottom)

/-- A recorded range past the cursor is the one held. -/
theorem held_of_lt (hlt : r.cursor < r.recorded) (hrecording : r.recording = some range) :
    r.held = some range := by
  rw [held, if_pos hlt, hrecording]

/-- What is held is the recorded range, past the cursor. -/
theorem Inv.of_held (hinv : Inv key weight limit bottom r) (hheld : r.held = some range) :
    r.cursor < r.recorded ∧ range.after = r.cursor ∧ range.upTo = r.recorded ∧
      IsRead key weight limit r.history range := by
  rw [held] at hheld
  split at hheld
  · rename_i hlt
    obtain ⟨other, hother, hread⟩ := hinv.recorded hlt
    obtain rfl := Option.some.inj (hheld.symm.trans hother)
    exact ⟨hlt, hread⟩
  · simp at hheld

/-- A key past every entry is past the cursor. -/
theorem Inv.cursor_lt (hinv : Inv key weight limit bottom r) {k : K} (hbottom : bottom < k)
    (hk : ∀ x ∈ r.history, key x < k) : r.cursor < k := by
  rcases hinv.cursor_mem with hcursor | ⟨x, hx, hcursor⟩
  · exact hcursor ▸ hbottom
  · exact hcursor ▸ hk x hx

/-- A key past every entry is past the recorded range. -/
theorem Inv.upTo_lt (hinv : Inv key weight limit bottom r) {k : K}
    (hk : ∀ x ∈ r.history, key x < k) (hheld : r.held = some range) : range.upTo < k := by
  obtain ⟨-, -, -, hread⟩ := hinv.of_held hheld
  obtain ⟨last, hlast, hkey⟩ := hread.exists_upTo
  exact hkey ▸ hk last hlast

/-- Something new at the end of the history is in no range recorded before it. -/
theorem Inv.append (hinv : Inv key weight limit bottom r) (x : α) (hbottom : bottom < key x)
    (hx : ∀ y ∈ r.history, key y < key x) : Inv key weight limit bottom (r.append x) where
  increasing := hinv.increasing.append hx
  pos := by
    intro y hy
    rcases List.mem_append.mp hy with hy | hy
    · exact hinv.pos y hy
    · exact (List.mem_singleton.mp hy) ▸ hbottom
  cursor_mem := by
    refine hinv.cursor_mem.imp_right ?_
    rintro ⟨y, hy, hkey⟩
    exact ⟨y, List.mem_append_left _ hy, hkey⟩
  pending := by
    change r.pending ++ [x] = past key (r.history ++ [x]) r.cursor
    rw [past_append_of_lt (hinv.cursor_lt hbottom hx), hinv.pending]
  recorded := by
    intro hlt
    obtain ⟨range, hrecording, hafter, hupTo, hread⟩ := hinv.recorded hlt
    have hbehind := hinv.upTo_lt hx (held_of_lt hlt hrecording)
    exact ⟨range, hrecording, hafter, hupTo, hread.append x hbehind⟩

/-- Recording the range that was read keeps what is recorded before the cursor. -/
theorem Inv.record (hinv : Inv key weight limit bottom r) (hafter : range.after = r.cursor)
    (hread : IsRead key weight limit r.history range) :
    Inv key weight limit bottom (r.record range) where
  increasing := hinv.increasing
  pos := hinv.pos
  cursor_mem := hinv.cursor_mem
  pending := hinv.pending
  recorded := fun _ => ⟨range, rfl, hafter, rfl, hread⟩

/-- The cursor moves to the end of the range held, once it is stored. -/
theorem Inv.move (hinv : Inv key weight limit bottom r) (hheld : r.held = some range) :
    Inv key weight limit bottom (r.move key range) := by
  obtain ⟨hlt, hafter, hupTo, hread⟩ := hinv.of_held hheld
  refine ⟨hinv.increasing, hinv.pos, Or.inr hread.exists_upTo, ?_, ?_⟩
  · change past key r.pending range.upTo = past key r.history range.upTo
    rw [hinv.pending, past_past (hupTo ▸ hlt.le)]
  · intro hpast
    exact absurd hupTo.symm.le (not_le.mpr hpast)

/-- While the recorded range is past the cursor, the reader takes it again. -/
theorem Inv.next_of_held (hinv : Inv key weight limit bottom r) (hheld : r.held = some range) :
    r.next key weight limit = some (range, true) := by
  obtain ⟨hlt, hafter, hupTo, hread⟩ := hinv.of_held hheld
  have hitems := hread.isRange.items
  have hpending : r.pending = range.items ++ past key r.history range.upTo := by
    rw [hinv.pending, hitems, ← hafter]
    exact (between_append_past hinv.increasing hread.isRange.nonempty.le).symm
  obtain ⟨extra, hextra, hmore⟩ := takeWeight_append weight limit 0 range.items
    (past key r.history range.upTo) hread.whole
  -- What comes behind the range is past the recorded end, so the cut there gives the range.
  have hkept : (range.items ++ extra).takeWhile (fun x => decide (key x ≤ r.recorded)) =
      range.items := by
    have hfront : ∀ x ∈ range.items, decide (key x ≤ r.recorded) = true := by
      intro x hx
      rw [hitems] at hx
      exact decide_eq_true (hupTo ▸ (mem_between.mp hx).2.2)
    rw [List.takeWhile_append_of_pos hfront]
    cases extra with
    | nil => simp
    | cons x rest =>
      have hpast : r.recorded < key x := hupTo ▸ (mem_past.mp (hmore.subset List.mem_cons_self)).2
      simp [hpast.not_ge]
  obtain ⟨last, hlast, hkey⟩ := Option.map_eq_some_iff.mp hread.last
  rw [next]
  simp only [hpending, hextra, hkept, hlt, decide_true, if_true, hlast, Option.map_some, hkey]
  rw [← hafter]

/-- Otherwise it takes the next range. -/
theorem Inv.next_of_not_held (hinv : Inv key weight limit bottom r)
    (hle : r.recorded ≤ r.cursor) {again : Bool}
    (hnext : r.next key weight limit = some (range, again)) :
    again = false ∧ range.after = r.cursor ∧ IsRead key weight limit r.history range := by
  rw [next] at hnext
  simp only [hle.not_gt, decide_false, Bool.false_eq_true, if_false] at hnext
  obtain ⟨last, hlast, heq⟩ := Option.map_eq_some_iff.mp hnext
  obtain ⟨rfl, rfl⟩ := Prod.mk.inj heq
  have hfront : takeWeight weight limit 0 r.pending <+: past key r.history r.cursor := by
    rw [← hinv.pending]
    exact takeWeight_prefix _ _ _ _
  refine ⟨rfl, rfl, ⟨?_, ?_⟩, ?_, ?_⟩
  · exact (mem_past.mp (hfront.subset (List.mem_of_getLast? hlast))).2
  · exact eq_between_of_prefix hinv.increasing hfront hlast
  · exact takeWeight_takeWeight _ _ _ _
  · simp [hlast]

variable {rows : α → List R} {tokens : List (K × K)} {stored : List R}

/-- Writing an entry past every entry keeps the ledger. -/
theorem Inv.ledger_append (hinv : Inv key weight limit bottom r)
    (hledger : Ledger.State.Inv key rows (r.ledger tokens stored)) (x : α)
    (hbottom : bottom < key x) (hx : ∀ y ∈ r.history, key y < key x) :
    Ledger.State.Inv key rows ((r.append x).ledger tokens stored) :=
  hledger.append x hx (hinv.cursor_lt hbottom hx) fun _ hrec => hinv.upTo_lt hx hrec

/-- Recording the range taken keeps the ledger. -/
theorem ledger_record (hledger : Ledger.State.Inv key rows (r.ledger tokens stored))
    (hle : r.recorded ≤ r.cursor) (hafter : range.after = r.cursor)
    (hread : IsRead key weight limit r.history range) :
    Ledger.State.Inv key rows ((r.record range).ledger tokens stored) := by
  have hnone : (r.ledger tokens stored).recorded = none := if_neg hle.not_gt
  have hlt : r.cursor < range.upTo := hafter ▸ hread.isRange.nonempty
  have heq : (r.record range).ledger tokens stored = (r.ledger tokens stored).record range := by
    simp [State.record, ledger, held, Ledger.State.record, hlt]
  rw [heq]
  exact hledger.record hnone range hafter hread.isRange

/-- Moving the cursor past the recorded range, once it is stored, keeps the ledger. -/
theorem Inv.ledger_move (hinv : Inv key weight limit bottom r)
    (hledger : Ledger.State.Inv key rows (r.ledger tokens stored)) (hheld : r.held = some range)
    (hstored : (r.ledger tokens stored).Stored rows range) :
    Ledger.State.Inv key rows ((r.move key range).ledger tokens stored) := by
  obtain ⟨-, -, hupTo, -⟩ := hinv.of_held hheld
  have heq : (r.move key range).ledger tokens stored = (r.ledger tokens stored).move range := by
    simp [State.move, ledger, held, Ledger.State.move, hupTo]
  rw [heq]
  exact hledger.move range hheld hstored

end State

end RangeReader
