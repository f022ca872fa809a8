import SolidTrace.LogQuery.SelectRows

/-!
# The rows of a SELECT in order

What a statement makes of rows one by one, in groups, or numbered in an order, and that rows that were
numbered come in that order again.
-/

namespace SolidTrace.LogQuery

variable {ch : ClickHouse} {s : Select} {rows result : List Sql.Row}

section Orders

/-- Two rows compared the other way round compare the other way. -/
theorem OrderTerm.compare_swap (term : OrderTerm) (a b : Sql.Row) :
    term.compare ch b a = (term.compare ch a b).swap := by
  unfold OrderTerm.compare
  generalize term.x.eval ch [] a = x, term.x.eval ch [] b = y
  rcases x with _ | v <;> rcases y with _ | w
  · rfl
  · cases term.nullsFirst <;> rfl
  · cases term.nullsFirst <;> rfl
  · simp only [compareOfLessAndEq]
    rcases lt_trichotomy v w with h | rfl | h
    · cases term.asc <;> simp [h, h.not_gt, h.ne']
    · simp
    · cases term.asc <;> simp [h, h.not_gt, h.ne']

/-- What a term does not put after one another it puts in the order of the first that tells them apart. -/
theorem OrderTerm.compare_trans (term : OrderTerm) {a b c : Sql.Row} (hab : term.compare ch a b ≠ .gt)
    (hbc : term.compare ch b c ≠ .gt) :
    term.compare ch a c = (term.compare ch a b).then (term.compare ch b c) := by
  unfold OrderTerm.compare at *
  generalize term.x.eval ch [] a = x, term.x.eval ch [] b = y, term.x.eval ch [] c = z at *
  rcases x with _ | u <;> rcases y with _ | v <;> rcases z with _ | w <;>
    simp only [compareOfLessAndEq] at * <;> grind

/-- Of two rows one may precede the other. -/
theorem mayPrecede_total (order : List OrderTerm) (a b : Sql.Row) :
    (mayPrecede ch order a b || mayPrecede ch order b a) = true := by
  induction order with
  | nil => rfl
  | cons term rest ih =>
    rw [mayPrecede, mayPrecede, term.compare_swap a b]
    cases term.compare ch a b with
    | lt => rfl
    | eq => exact ih
    | gt => rfl

/-- What may precede is transitive. -/
theorem mayPrecede_trans (order : List OrderTerm) (a b c : Sql.Row) (hab : mayPrecede ch order a b = true)
    (hbc : mayPrecede ch order b c = true) : mayPrecede ch order a c = true := by
  induction order with
  | nil => rfl
  | cons term rest ih =>
    have hkept : ∀ x y, mayPrecede ch (term :: rest) x y = true → term.compare ch x y ≠ .gt := by
      intro x y h hgt
      rw [mayPrecede, hgt] at h
      cases h
    have htrans := term.compare_trans (hkept a b hab) (hkept b c hbc)
    rw [mayPrecede] at hab hbc ⊢
    rw [htrans]
    cases hfirst : term.compare ch a b <;> cases hsecond : term.compare ch b c <;>
      simp_all
/-- Of any rows a statement gives some. -/
theorem Select.exists_gives (ch : ClickHouse) (s : Select) {order : List OrderTerm} (hdistinct : s.distinct = false)
    (horder : s.order = .terms order) (rows : List Sql.Row) : ∃ result, s.Gives ch rows result := by
  let arranged := (rows.filter (s.passes ch)).mergeSort (mayPrecede ch s.numbering)
  let sorted := (s.made ch arranged).mergeSort (s.precedes ch)
  have hprecedes : ∀ a b, s.precedes ch a b = mayPrecede ch order a.1 b.1 := by
    intro a b
    unfold Select.precedes
    rw [horder]
  refine ⟨_, arranged, s.made ch arranged, sorted, List.mergeSort_perm .., ?_, by simp [Select.Distinct, hdistinct],
    List.mergeSort_perm .., ?_, rfl⟩
  · exact List.pairwise_mergeSort (mayPrecede_trans _) (mayPrecede_total _) _
  · refine List.pairwise_mergeSort (fun a b c => ?_) (fun a b => ?_) _
    · simp only [hprecedes]
      exact mayPrecede_trans order a.1 b.1 c.1
    · simp only [hprecedes]
      exact mayPrecede_total order a.1 b.1

end Orders

section Values

/-- A select list of values only. -/
def Select.OnlyValues (s : Select) : Prop := ∀ item ∈ s.items, ∃ x, item.1 = .value x

/-- A row's items are set the same from the same values. -/
theorem setItems_congr {value value' : Item → Option Value} {items : List (Item × String)} {row : Sql.Row}
    (h : ∀ item ∈ items, value item.1 = value' item.1) : setItems value items row = setItems value' items row := by
  unfold setItems
  induction items generalizing row with
  | nil => rfl
  | cons item rest ih =>
    rw [List.foldl_cons, List.foldl_cons, h item List.mem_cons_self]
    exact ih fun item hitem => h item (List.mem_cons_of_mem _ hitem)

/-- Values are read from a row whatever its place. -/
theorem Select.OnlyValues.rowOf_eq (hs : s.OnlyValues) (rows group : List Sql.Row) (i : ℕ) (row : Sql.Row) :
    s.rowOf ch rows group i row = s.rowOf ch [] group 0 row := by
  refine setItems_congr fun item hitem => ?_
  obtain ⟨x, hx⟩ := hs item hitem
  rw [hx]
  rfl

/-- Rows of values are made one by one. -/
theorem Select.OnlyValues.made_eq (hs : s.OnlyValues) (hgroup : s.group = none) (rows : List Sql.Row) :
    s.made ch rows = rows.map fun row => (row, s.rowOf ch [] [] 0 row) := by
  unfold Select.made
  rw [hgroup]
  refine List.ext_getElem (by simp) fun i _ _ => ?_
  simp [hs.rowOf_eq rows]

/-- A select that is not distinct keeps all its rows. -/
theorem Select.distinct_eq (hdistinct : s.distinct = false) {made kept : List (Sql.Row × Sql.Row)}
    (h : s.Distinct made kept) : kept = made := by
  simpa [Select.Distinct, hdistinct] using h

/-- A statement that makes rows of values one by one gives the row of each that passes, in any order. -/
theorem Select.OnlyValues.gives_perm (hs : s.OnlyValues) (hgroup : s.group = none) (hdistinct : s.distinct = false)
    (hlimit : s.limit = none) (h : s.Gives ch rows result) :
    result.Perm ((rows.filter (s.passes ch)).map (s.rowOf ch [] [] 0)) := by
  obtain ⟨arranged, kept, sorted, harranged, -, hkept, hsorted, -, rfl⟩ := h
  have hkept' := Select.distinct_eq hdistinct hkept
  rw [hs.made_eq hgroup] at hkept'
  subst hkept'
  have hsnd := hsorted.map Prod.snd
  rw [List.map_map] at hsnd
  rw [hlimit]
  exact hsnd.trans (harranged.map _)

/-- A statement that groups its rows gives a row of each group, in any order. -/
theorem Select.OnlyValues.gives_groups (hs : s.OnlyValues) {n : ℕ} (hgroup : s.group = some n)
    (hdistinct : s.distinct = false) (hlimit : s.limit = none) (h : s.Gives ch rows result) :
    ∃ arranged, arranged.Perm (rows.filter (s.passes ch)) ∧
      result.Perm ((s.groups ch n arranged).map fun group => s.rowOf ch [] group 0 (group.head?.getD noRow)) := by
  obtain ⟨arranged, kept, sorted, harranged, -, hkept, hsorted, -, rfl⟩ := h
  have hkept' := Select.distinct_eq hdistinct hkept
  subst hkept'
  refine ⟨arranged, harranged, ?_⟩
  have hsnd := hsorted.map Prod.snd
  have hmade : (s.made ch arranged).map Prod.snd =
      (s.groups ch n arranged).map fun group => s.rowOf ch [] group 0 (group.head?.getD noRow) := by
    unfold Select.made
    rw [hgroup]
    simp only [List.map_map]
    exact List.map_congr_left fun group _ => hs.rowOf_eq arranged group 0 _
  rw [hlimit]
  rwa [hmade] at hsnd

end Values

section Ranks

/-- Rows with their numbers in a column. -/
def ranked (name : String) (rows : List Sql.Row) : List Sql.Row :=
  rows.mapIdx fun i row => Function.update row name (some (.number (i + 1)))

/-- A statement that numbers its rows. -/
structure Select.Numbers (s : Select) (order : List OrderTerm) (name : String) : Prop where
  star : s.star = some []
  items : s.items = [(.rowNumber order, name)]
  distinct : s.distinct = false
  filter : s.filter = none
  group : s.group = none
  limit : s.limit = none

/-- A statement that numbers its rows in an order gives each with its number there. -/
theorem Select.Numbers.gives {order : List OrderTerm} {name : String} (hs : s.Numbers order name)
    (h : s.Gives ch rows result) : ∃ arranged, arranged.Perm rows ∧
      arranged.Pairwise (fun a b => mayPrecede ch order a b = true) ∧ result.Perm (ranked name arranged) := by
  obtain ⟨arranged, kept, sorted, harranged, horder, hkept, hsorted, -, rfl⟩ := h
  have hkept' := Select.distinct_eq hs.distinct hkept
  subst hkept'
  have hpasses : ∀ row, s.passes ch row = true := fun row => by simp [Select.passes, hs.filter]
  rw [List.filter_eq_self.2 fun row _ => hpasses row] at harranged
  have hnumbering : s.numbering = order := by
    unfold Select.numbering
    rw [hs.items]
    rfl
  rw [hnumbering] at horder
  refine ⟨arranged, harranged, horder, ?_⟩
  have hmade : (s.made ch arranged).map Prod.snd = ranked name arranged := by
    have hrow : ∀ i row, s.rowOf ch arranged [] i row = Function.update row name (some (.number (i + 1))) := by
      intro i row
      funext column
      simp [Select.rowOf, hs.star, hs.items, setItems, Item.eval, starRow, Function.update_apply]
    unfold Select.made ranked
    rw [hs.group]
    refine List.ext_getElem (by simp) fun i _ _ => ?_
    simp only [List.getElem_map, List.getElem_mapIdx, hrow]
  have hsnd := hsorted.map Prod.snd
  rw [hs.limit]
  rwa [hmade] at hsnd

/-- The order by a column of numbers. -/
def byNumber (rel : Option String) (name : String) : List OrderTerm := [⟨.column rel name, true, false⟩]

/-- Rows precede by their numbers. -/
theorem mayPrecede_byNumber {rel : Option String} {name : String} {a b : Sql.Row} {p q : ℚ}
    (ha : a name = some (.number p)) (hb : b name = some (.number q)) :
    mayPrecede ch (byNumber rel name) a b = true ↔ p ≤ q := by
  rcases lt_trichotomy p q with hlt | rfl | hgt
  · have hval := Value.number_lt_number.2 hlt
    simp [byNumber, mayPrecede, OrderTerm.compare, Sql.eval, ha, hb, compareOfLessAndEq, hval, hlt.le]
  · simp [byNumber, mayPrecede, OrderTerm.compare, Sql.eval, ha, hb, compareOfLessAndEq]
  · have hval : ¬ Value.number p < .number q := by
      rw [Value.number_lt_number]
      exact hgt.not_gt
    have hne : Value.number p ≠ .number q := by simpa using hgt.ne'
    simp [byNumber, mayPrecede, OrderTerm.compare, Sql.eval, ha, hb, compareOfLessAndEq, hval, hne, hgt]

/-- In the order from a column's largest number. -/
theorem mayPrecede_fromLargest {rel : Option String} {name : String} {a b : Sql.Row} {p q : ℚ}
    (ha : a name = some (.number p)) (hb : b name = some (.number q)) :
    mayPrecede ch [⟨.column rel name, false, false⟩] a b = true ↔ q ≤ p := by
  have hrising : mayPrecede ch (byNumber rel name) b a = true ↔ q ≤ p := mayPrecede_byNumber hb ha
  rw [← hrising]
  simp [byNumber, mayPrecede, OrderTerm.compare, Sql.eval, ha, hb]

/-- Columns but that of the numbers are as they were. -/
theorem map_ranked {β : Type*} {name : String} {f : Sql.Row → β}
    (h : ∀ row v, f (Function.update row name v) = f row) (rows : List Sql.Row) :
    (ranked name rows).map f = rows.map f := by
  refine List.ext_getElem (by simp [ranked]) fun i _ _ => ?_
  simp [ranked, h]

/-- The first rows that are ranked are ranked. -/
theorem ranked_take (name : String) (rows : List Sql.Row) (n : ℕ) :
    (ranked name rows).take n = ranked name (rows.take n) := by
  refine List.ext_getElem (by simp [ranked]) fun i _ _ => ?_
  simp [ranked]

/-- A row that is ranked has its place for its number. -/
theorem getElem_ranked (name : String) (rows : List Sql.Row) {i : ℕ} (hi : i < (ranked name rows).length) :
    (ranked name rows)[i] name = some (.number (i + 1)) :=
  (congrFun List.getElem_mapIdx name).trans (Function.update_self ..)

/-- Rows that were numbered, sorted by their numbers, are in the order they were numbered in. -/
theorem eq_ranked {rel : Option String} {name : String} {rows sorted : List Sql.Row}
    (hperm : sorted.Perm (ranked name rows))
    (hsorted : sorted.Pairwise fun a b => mayPrecede ch (byNumber rel name) a b = true) :
    sorted = ranked name rows := by
  have hranked : (ranked name rows).Pairwise fun a b => mayPrecede ch (byNumber rel name) a b = true := by
    rw [List.pairwise_iff_getElem]
    intro i j hi hj hij
    rw [mayPrecede_byNumber (getElem_ranked name rows hi) (getElem_ranked name rows hj)]
    have hle : (i : ℚ) ≤ j := by exact_mod_cast hij.le
    linarith
  refine hperm.eq_of_pairwise (fun a b ha hb hab hba => ?_) hsorted hranked
  obtain ⟨i, hi, rfl⟩ := List.getElem_of_mem (hperm.mem_iff.1 ha)
  obtain ⟨j, hj, rfl⟩ := List.getElem_of_mem hb
  rw [mayPrecede_byNumber (getElem_ranked name rows hi) (getElem_ranked name rows hj)] at hab
  rw [mayPrecede_byNumber (getElem_ranked name rows hj) (getElem_ranked name rows hi)] at hba
  have heq : (i : ℚ) = j := by linarith
  obtain rfl : i = j := by exact_mod_cast heq
  rfl

/-- A statement that makes rows of values one by one, in the order of their numbers. -/
structure Select.Ranks (s : Select) (rel : Option String) (name : String) : Prop where
  values : s.OnlyValues
  distinct : s.distinct = false
  filter : s.filter = none
  group : s.group = none
  order : s.order = .terms (byNumber rel name)

/-- Of rows that were numbered it gives the first, in the order they were numbered in. -/
theorem Select.Ranks.gives {rel : Option String} {name : String} (hs : s.Ranks rel name) {arranged : List Sql.Row}
    (hrows : rows.Perm (ranked name arranged)) (h : s.Gives ch rows result) :
    result = (match s.limit with | some n => (ranked name arranged).take n | none => ranked name arranged).map
      (s.rowOf ch [] [] 0) := by
  obtain ⟨chosen, kept, sorted, hchosen, -, hkept, hsorted, hordered, rfl⟩ := h
  have hkept' := Select.distinct_eq hs.distinct hkept
  rw [hs.values.made_eq hs.group] at hkept'
  subst hkept'
  have hpasses : ∀ row, s.passes ch row = true := fun row => by simp [Select.passes, hs.filter]
  rw [List.filter_eq_self.2 fun row _ => hpasses row] at hchosen
  have hfst : sorted.map Prod.fst = ranked name arranged := by
    have hrising : (sorted.map Prod.fst).Pairwise fun a b => mayPrecede ch (byNumber rel name) a b = true := by
      rw [List.pairwise_map]
      refine hordered.imp fun {a b} hab => ?_
      unfold Select.precedes at hab
      rwa [hs.order] at hab
    have hmap := hsorted.map Prod.fst
    rw [List.map_map] at hmap
    simp only [Function.comp_def, List.map_id'] at hmap
    exact eq_ranked (hmap.trans (hchosen.trans hrows)) hrising
  have hpairs : sorted = (sorted.map Prod.fst).map fun row => (row, s.rowOf ch [] [] 0 row) := by
    rw [List.map_map]
    conv_lhs => rw [← List.map_id sorted]
    refine List.map_congr_left fun pair hpair => ?_
    obtain ⟨row, -, rfl⟩ := List.mem_map.1 (hsorted.mem_iff.1 hpair)
    rfl
  rw [hpairs, hfst]
  cases s.limit with
  | none => simp [Function.comp_def]
  | some n => simp [Function.comp_def, List.map_take]

end Ranks

end SolidTrace.LogQuery
