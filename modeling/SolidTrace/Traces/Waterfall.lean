import SolidTrace.Lib.Generations
import SolidTrace.Traces.TraceView

/-!
# When the waterfall shows every Span once

The rows hold the generations of the trace's Spans, so they end and hold every Span once exactly when
no id a Span names as its parent is repeated and no Spans name one another in a cycle. Spans in a cycle
are in no row unless one of them is also named by a root's tree, and then the walk doesn't end.
-/

namespace SolidTrace.Traces

open Lib

variable {sorting : SortBy} {received : List Received} {marked : List Received}

section Options

variable {α β : Type*} {f : α → Option β}

/-- A step for each succeeds when it does for the first and for the others. -/
theorem mapM_cons_eq_some {a : α} {rest : List α} {answers : List β} :
    (a :: rest).mapM f = some answers ↔
      ∃ first others, f a = some first ∧ rest.mapM f = some others ∧ answers = first :: others := by
  rw [List.mapM_cons]
  cases hfirst : f a with
  | none => simp
  | some first =>
    cases hrest : rest.mapM f with
    | none => simp
    | some others => simp [eq_comm]

/-- A step for each succeeds when it does for every one. -/
theorem exists_mapM_iff {list : List α} :
    (∃ answers, list.mapM f = some answers) ↔ ∀ a ∈ list, ∃ answer, f a = some answer := by
  induction list with
  | nil => simp
  | cons a rest ih =>
    rw [List.forall_mem_cons, ← ih]
    constructor
    · intro ⟨answers, hanswers⟩
      obtain ⟨first, others, hfirst, hothers, -⟩ := mapM_cons_eq_some.mp hanswers
      exact ⟨⟨first, hfirst⟩, others, hothers⟩
    · intro ⟨⟨first, hfirst⟩, others, hothers⟩
      exact ⟨first :: others, mapM_cons_eq_some.mpr ⟨first, others, hfirst, hothers, rfl⟩⟩

/-- Steps that never fail succeed one after another. -/
theorem exists_foldlM {step : β → α → Option β} {list : List α}
    (hstep : ∀ a ∈ list, ∀ state, ∃ next, step state a = some next) (state : β) :
    ∃ last, list.foldlM step state = some last := by
  induction list generalizing state with
  | nil => exact ⟨state, rfl⟩
  | cons a rest ih =>
    rw [List.forall_mem_cons] at hstep
    obtain ⟨next, hnext⟩ := hstep.1 state
    obtain ⟨last, hlast⟩ := ih hstep.2 next
    exact ⟨last, by rw [List.foldlM_cons, hnext]; exact hlast⟩

end Options

section Walk

/-- Grouping siblings loses no Span. -/
theorem siblings_flatten (spans : List Received) : (siblings sorting spans).flatten.Perm spans :=
  (flatten_groupBy _).trans (sorting.perm _ _)

/-- No group of siblings is empty. -/
theorem siblings_ne_nil {spans group : List Received} (hgroup : group ∈ siblings sorting spans) :
    group ≠ [] :=
  ne_nil_of_mem_groupBy hgroup

/-- One level of a walk shows each group's row and walks its children. -/
theorem walk_succ_eq_some {fuel : ℕ} {members : List Received} {depth : ℕ} {rows : List Row} :
    walk sorting received marked (fuel + 1) members depth = some rows ↔
      ∃ nested, (siblings sorting (members.flatMap (childrenOf received))).mapM
          (fun group => walk sorting received marked fuel group (depth + 1)) = some nested ∧
        rows = row received marked members depth :: nested.flatten := by
  rw [walk]
  cases (siblings sorting (members.flatMap (childrenOf received))).mapM
      (fun group => walk sorting received marked fuel group (depth + 1)) with
  | none => simp
  | some nested => simp [eq_comm]

/-- The groups have no more generations when none of them has. -/
theorem descend_flatten_eq_nil_iff {fuel : ℕ} {groups : List (List Received)} :
    descend (childrenOf received) fuel groups.flatten = [] ↔
      ∀ group ∈ groups, descend (childrenOf received) fuel group = [] := by
  induction groups with
  | nil => simp [descend_nil]
  | cons group rest ih => simp [descend_append, ih]

/-- The walk of groups ends when their generations do. -/
theorem exists_walk_iff {fuel : ℕ} {groups : List (List Received)} {depth : ℕ}
    (hgroups : ∀ group ∈ groups, group ≠ []) :
    (∃ trees, groups.mapM (fun group => walk sorting received marked fuel group depth) =
        some trees) ↔ descend (childrenOf received) fuel groups.flatten = [] := by
  induction fuel generalizing groups depth with
  | zero =>
    rw [exists_mapM_iff]
    cases groups with
    | nil => simp [descend]
    | cons group rest =>
      constructor
      · intro hwalk
        obtain ⟨rows, hrows⟩ := hwalk group List.mem_cons_self
        simp [walk] at hrows
      · intro hnone
        exact absurd (List.append_eq_nil_iff.mp hnone).1 (hgroups group List.mem_cons_self)
  | succ fuel ih =>
    rw [exists_mapM_iff, descend_flatten_eq_nil_iff]
    apply forall₂_congr
    intro group _
    have hnested := @ih (siblings sorting (group.flatMap (childrenOf received))) (depth + 1)
      fun _ hmem => siblings_ne_nil hmem
    have hperm := (@descend_perm Received (childrenOf received) _ _
      (@siblings_flatten sorting (group.flatMap (childrenOf received))) fuel).length_eq
    rw [← List.length_eq_zero_iff, hperm, List.length_eq_zero_iff] at hnested
    rw [descend, ← hnested]
    constructor
    · intro hrows
      obtain ⟨rows, hrows⟩ := hrows
      obtain ⟨nested, hwalk, -⟩ := walk_succ_eq_some.mp hrows
      exact ⟨nested, hwalk⟩
    · intro hnested
      obtain ⟨nested, hwalk⟩ := hnested
      exact ⟨_, walk_succ_eq_some.mpr ⟨nested, hwalk, rfl⟩⟩

/-- The rows hold the generations. -/
theorem walk_members {fuel : ℕ} {groups : List (List Received)} {depth : ℕ}
    {trees : List (List Row)}
    (hwalk : groups.mapM (fun group => walk sorting received marked fuel group depth) =
      some trees) :
    (trees.flatten.flatMap Row.members).Perm
      (generations (childrenOf received) fuel groups.flatten) := by
  induction fuel generalizing groups depth trees with
  | zero =>
    cases groups with
    | nil =>
      simp only [List.mapM_nil, Option.pure_def, Option.some.injEq] at hwalk
      simp [← hwalk, generations]
    | cons group rest =>
      obtain ⟨_, _, hnone, -⟩ := mapM_cons_eq_some.mp hwalk
      simp [walk] at hnone
  | succ fuel ih =>
    induction groups generalizing trees with
    | nil =>
      simp only [List.mapM_nil, Option.pure_def, Option.some.injEq] at hwalk
      simp only [← hwalk, List.flatten_nil, generations_nil, List.flatMap_nil]
      exact .refl _
    | cons group rest ihGroups =>
      obtain ⟨tree, others, htree, hothers, rfl⟩ := mapM_cons_eq_some.mp hwalk
      obtain ⟨nested, hnested, rfl⟩ := walk_succ_eq_some.mp htree
      have hbelow := (ih hnested).trans (generations_perm (siblings_flatten _) fuel)
      rw [List.flatten_cons, List.flatMap_append, List.flatten_cons]
      apply List.Perm.trans _ (generations_append (fuel + 1) group rest.flatten).symm
      exact (hbelow.append_left group).append (ihGroups hothers)

end Walk

section Nesting

/-- Whether every row is at depth 0 or comes after a row that holds the parent of one of its Spans, at
one depth more. `above` are the rows before these. -/
def NestedUnder : List Row → List Row → Prop
  | _, [] => True
  | above, row :: rest => (row.depth = 0 ∨ ∃ other ∈ above, row.depth = other.depth + 1 ∧
      ∃ span ∈ row.members, ∃ parent ∈ other.members, span.1.parentSpanID = parent.1.spanID) ∧
    NestedUnder (row :: above) rest

/-- Rows nested under some rows are nested under more. -/
theorem NestedUnder.mono {above more rows : List Row} (hmore : above ⊆ more)
    (hnested : NestedUnder above rows) : NestedUnder more rows := by
  induction rows generalizing above more with
  | nil => trivial
  | cons row rest ih =>
    refine ⟨?_, ih (List.cons_subset_cons row hmore) hnested.2⟩
    cases hnested.1 with
    | inl hroot => exact Or.inl hroot
    | inr hparent =>
      obtain ⟨other, hother, hnames⟩ := hparent
      exact Or.inr ⟨other, hmore hother, hnames⟩

/-- Two lists of rows nested under the same rows are nested together. -/
theorem NestedUnder.append {above rows others : List Row} (hrows : NestedUnder above rows)
    (hothers : NestedUnder above others) : NestedUnder above (rows ++ others) := by
  induction rows generalizing above with
  | nil => exact hothers
  | cons row rest ih =>
    exact ⟨hrows.1, ih hrows.2 (hothers.mono (List.subset_cons_self row above))⟩

/-- Trees nested under the same rows are nested together. -/
theorem NestedUnder.flatten {above : List Row} {trees : List (List Row)}
    (htrees : ∀ tree ∈ trees, NestedUnder above tree) : NestedUnder above trees.flatten := by
  induction trees with
  | nil => trivial
  | cons tree rest ih =>
    rw [List.forall_mem_cons] at htrees
    exact htrees.1.append (ih htrees.2)

/-- What a step for each gives is given for one of them. -/
theorem exists_of_mem_mapM {α β : Type*} {f : α → Option β} {list : List α} {answers : List β}
    (hanswers : list.mapM f = some answers) {answer : β} (hanswer : answer ∈ answers) :
    ∃ a ∈ list, f a = some answer := by
  induction list generalizing answers with
  | nil =>
    simp only [List.mapM_nil, Option.pure_def, Option.some.injEq] at hanswers
    simp [← hanswers] at hanswer
  | cons a rest ih =>
    obtain ⟨first, others, hfirst, hothers, rfl⟩ := mapM_cons_eq_some.mp hanswers
    cases List.mem_cons.mp hanswer with
    | inl hsame => exact ⟨a, List.mem_cons_self, hsame ▸ hfirst⟩
    | inr hmem =>
      obtain ⟨b, hb, hf⟩ := ih hothers hmem
      exact ⟨b, List.mem_cons_of_mem a hb, hf⟩

/-- A walk from Spans one of which has its parent in a row above nests its rows. -/
theorem walk_nested {fuel : ℕ} {members : List Received} {depth : ℕ} {above rows : List Row}
    (hwalk : walk sorting received marked fuel members depth = some rows)
    (hparent : depth = 0 ∨ ∃ other ∈ above, depth = other.depth + 1 ∧
      ∃ span ∈ members, ∃ parent ∈ other.members, span.1.parentSpanID = parent.1.spanID) :
    NestedUnder above rows := by
  induction fuel generalizing members depth above rows with
  | zero => simp [walk] at hwalk
  | succ fuel ih =>
    obtain ⟨nested, hnested, rfl⟩ := walk_succ_eq_some.mp hwalk
    refine ⟨hparent, NestedUnder.flatten ?_⟩
    intro tree htree
    obtain ⟨group, hgroup, hrows⟩ := exists_of_mem_mapM hnested htree
    apply ih hrows
    obtain ⟨child, hchild⟩ := List.exists_mem_of_ne_nil group (siblings_ne_nil hgroup)
    have hmem : child ∈ members.flatMap (childrenOf received) :=
      (siblings_flatten _).mem_iff.mp (List.mem_flatten.mpr ⟨group, hgroup, hchild⟩)
    obtain ⟨parent, hmember, hnames⟩ := List.mem_flatMap.mp hmem
    refine Or.inr ⟨row received marked members depth, List.mem_cons_self, rfl, child, hchild, parent,
      hmember, ?_⟩
    simpa [childrenOf] using (List.mem_filter.mp hnames).2

/-- A row counts the Spans it holds. -/
theorem walk_count {fuel : ℕ} {members : List Received} {depth : ℕ} {rows : List Row}
    (hwalk : walk sorting received marked fuel members depth = some rows) :
    ∀ row ∈ rows, row.count = row.members.length := by
  induction fuel generalizing members depth rows with
  | zero => simp [walk] at hwalk
  | succ fuel ih =>
    obtain ⟨nested, hnested, rfl⟩ := walk_succ_eq_some.mp hwalk
    intro other hother
    cases List.mem_cons.mp hother with
    | inl hfirst => rw [hfirst]; rfl
    | inr hbelow =>
      obtain ⟨tree, htree, hmem⟩ := List.mem_flatten.mp hbelow
      obtain ⟨group, -, hrows⟩ := exists_of_mem_mapM hnested htree
      exact ih hrows other hmem

end Nesting

section Critical

/-- The marking of Spans whose generations end, ends. -/
theorem exists_mark {fuel : ℕ} {spans : List Received}
    (hends : descend (childrenOf received) fuel spans = []) (untilUs : ℤ) :
    ∃ marks, mark sorting received (fuel + 1) spans untilUs = some marks := by
  induction fuel generalizing spans untilUs with
  | zero =>
    have hnone : sorting.sort (fun span => -endOf span) spans = [] := by
      apply List.Perm.eq_nil
      have hsorted := sorting.perm (fun span => -endOf span) spans
      rwa [show spans = [] from hends] at hsorted ⊢
    exact ⟨[], by rw [mark, hnone]; rfl⟩
  | succ fuel ih =>
    let step : List Received × ℤ → Received → Option (List Received × ℤ) := fun state span => do
      if state.2 < endOf span then return state
      else
        let within ← mark sorting received (fuel + 1) (childrenOf received span) (endOf span)
        return (state.1 ++ span :: within, startOf span)
    have hfold : ∃ last, (sorting.sort (fun span => -endOf span) spans).foldlM step
        ([], untilUs) = some last := by
      apply exists_foldlM
      intro span hspan state
      by_cases hrunning : state.2 < endOf span
      · exact ⟨state, by simp [step, hrunning]⟩
      · have hmem : span ∈ spans := (sorting.perm _ _).mem_iff.mp hspan
        have hchild : descend (childrenOf received) fuel (childrenOf received span) = [] := by
          rw [descend, List.flatMap_def] at hends
          exact descend_flatten_eq_nil_iff.mp hends _ (List.mem_map_of_mem hmem)
        obtain ⟨within, hwithin⟩ := ih hchild (endOf span)
        exact ⟨(state.1 ++ span :: within, startOf span), by simp [step, hrunning, hwithin]⟩
    obtain ⟨last, hlast⟩ := hfold
    exact ⟨last.1, by rw [mark, hlast]; rfl⟩

end Critical

/-- Whether the rows and the critical path end, the rows hold every received Span once, and count
them, and every row comes after one its Spans are nested in. -/
def ShowsOnce (sorting : SortBy) (received : List Received) : Prop :=
  ∃ fuel rows, (critical sorting received fuel).isSome ∧ spans sorting received fuel = some rows ∧
    (rows.flatMap Row.members).Perm received ∧
    (rows.map Row.count).sum = received.length ∧ NestedUnder [] rows

/-- A waterfall is the trees under its roots' groups, with the critical path marked. -/
theorem spans_eq_some {fuel : ℕ} {rows : List Row} :
    spans sorting received fuel = some rows ↔
      ∃ marked trees, critical sorting received fuel = some marked ∧
        (siblings sorting (roots received)).mapM
          (fun group => walk sorting received marked fuel group 0) = some trees ∧
        rows = trees.flatten := by
  unfold spans
  cases hcritical : critical sorting received fuel with
  | none => simp
  | some marked =>
    cases htrees : (siblings sorting (roots received)).mapM
        (fun group => walk sorting received marked fuel group 0) with
    | none => simp [htrees]
    | some trees => simp [htrees, eq_comm]

/-- The rows' counts sum to the number of Spans shown. -/
theorem sum_count {rows : List Row} (hcount : ∀ row ∈ rows, row.count = row.members.length) :
    (rows.map Row.count).sum = (rows.flatMap Row.members).length := by
  rw [List.length_flatMap]
  congr 1
  exact List.map_congr_left hcount

/-- The waterfall's rows end when the roots' generations do, and hold them. -/
theorem showsOnce_iff_generations :
    ShowsOnce sorting received ↔ ∃ fuel,
      descend (childrenOf received) fuel (roots received) = [] ∧
        (generations (childrenOf received) fuel (roots received)).Perm received := by
  have hroots := @siblings_flatten sorting (roots received)
  have hnonempty : ∀ group ∈ siblings sorting (roots received), group ≠ [] :=
    fun _ hgroup => siblings_ne_nil hgroup
  constructor
  · intro ⟨fuel, rows, _, hspans, hperm, _, _⟩
    obtain ⟨marked, trees, -, htrees, rfl⟩ := spans_eq_some.mp hspans
    have hends := (exists_walk_iff hnonempty).mp ⟨trees, htrees⟩
    refine ⟨fuel, ?_, ?_⟩
    · have hlength := (@descend_perm Received (childrenOf received) _ _ hroots fuel).length_eq
      rw [hends, List.length_nil] at hlength
      exact List.length_eq_zero_iff.mp hlength.symm
    · have hgenerations := @generations_perm Received (childrenOf received) _ _ hroots fuel
      exact hgenerations.symm.trans ((walk_members htrees).symm.trans hperm)
  · intro ⟨fuel, hends, hperm⟩
    obtain ⟨marked, hmarked⟩ := @exists_mark sorting received fuel _ hends
      ((lastEnd received).getD 0 + 1)
    have hends' : descend (childrenOf received) (fuel + 1) (siblings sorting (roots received)).flatten
        = [] := by
      have hlength := (@descend_perm Received (childrenOf received) _ _ hroots (fuel + 1)).length_eq
      rw [descend_eq_nil_of_le (Nat.le_succ fuel) hends, List.length_nil] at hlength
      exact List.length_eq_zero_iff.mp hlength
    obtain ⟨trees, htrees⟩ := (@exists_walk_iff sorting received marked (fuel + 1) _ 0 hnonempty).mpr hends'
    have hmembers : (trees.flatten.flatMap Row.members).Perm received := by
      apply (walk_members htrees).trans
      apply (@generations_perm Received (childrenOf received) _ _ hroots (fuel + 1)).trans
      rw [generations_eq_of_le (Nat.le_succ fuel) hends]
      exact hperm
    have hcount : ∀ row ∈ trees.flatten, row.count = row.members.length := by
      intro row hrow
      obtain ⟨tree, htree, hmem⟩ := List.mem_flatten.mp hrow
      obtain ⟨group, -, hrows⟩ := exists_of_mem_mapM htrees htree
      exact walk_count hrows row hmem
    refine ⟨fuel + 1, trees.flatten, by rw [critical, hmarked]; rfl,
      spans_eq_some.mpr ⟨marked, trees, hmarked, htrees, rfl⟩, hmembers, ?_, ?_⟩
    · rw [sum_count hcount, hmembers.length_eq]
    · apply NestedUnder.flatten
      intro tree htree
      obtain ⟨group, -, hrows⟩ := exists_of_mem_mapM htrees htree
      exact walk_nested hrows (Or.inl rfl)

/-- The waterfall shows every Span once exactly when no id a Span names as its parent is repeated and
following parents from any Span comes to one whose parent isn't in the trace. -/
theorem waterfall_showsOnce_iff (sorting : SortBy) (projects : List Storage.ProjectID)
    (answered : List Span) :
    ShowsOnce sorting (Traces.received projects answered) ↔
      WellParented (fun span : Received => span.1.spanID) (fun span => span.1.parentSpanID)
        (Traces.received projects answered) := by
  have hnodup : (Traces.received projects answered).Nodup := by
    apply List.Nodup.of_map Prod.snd
    simp [Traces.received, List.nodup_range']
  rw [showsOnce_iff_generations]
  exact generations_perm_iff hnodup

section Loops

/-- Sorting that keeps Spans with one key in the order they were. -/
def stableSort : SortBy where
  sort key spans := spans.insertionSort fun a b => key a ≤ key b
  perm key spans := List.perm_insertionSort _ spans
  sorted key spans := by
    have : Std.Total fun a b : Received => key a ≤ key b := ⟨fun a b => le_total (key a) (key b)⟩
    have : IsTrans Received fun a b => key a ≤ key b := ⟨fun _ _ _ => le_trans⟩
    exact List.pairwise_insertionSort _ spans

/-- Two Spans that name each other as parents. -/
def loopedSpans : List Span :=
  [⟨1, "a1", "b2", "", 0, 10, 5⟩, ⟨1, "b2", "a1", "", 2, 5, 5⟩]

/-- Neither of two Spans that name each other is in any row. -/
theorem looped_notShown : ¬ ShowsOnce stableSort (Traces.received [1] loopedSpans) := by
  rw [showsOnce_iff_generations]
  intro ⟨fuel, _, hperm⟩
  have hroots : roots (Traces.received [1] loopedSpans) = [] := by decide +kernel
  rw [hroots, generations_nil] at hperm
  exact absurd hperm.length_eq (by decide +kernel)

end Loops

end SolidTrace.Traces
