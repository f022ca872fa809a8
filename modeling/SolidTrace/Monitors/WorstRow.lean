import SolidTrace.Lib.Picks
import SolidTrace.Monitors.Evaluation

/-!
# The worst row

A Monitor that doesn't notify by group fires on its worst row. The worst is picked by `worse` among
the rows that reach the minimum, when any do, and is then tested as any group is. It fires exactly
when some row does: the threshold is an end of the order `worse` picks by, and a row below the
minimum never fires.
-/

namespace SolidTrace.Monitors

open Lib

variable {m : LogMonitor}

/-- A saved Threshold monitor's operator: one of numbers, or comparing the change, one of changes. -/
def LogMonitor.Operated (m : LogMonitor) : Prop :=
  if m.comparesTheChange then m.operator ∈ [some .rises, some .falls, some .changes]
  else m.operator ∈ [some .gt, some .ge, some .lt, some .le]

instance : Decidable m.Operated :=
  inferInstanceAs (Decidable (if m.comparesTheChange then
    m.operator ∈ [some Operator.rises, some .falls, some .changes]
    else m.operator ∈ [some Operator.gt, some .ge, some .lt, some .le]))

/-- A Monitor that compares has an operator. -/
theorem LogMonitor.Operated.exists_operator (hoperator : m.Operated) :
    ∃ operator, m.operator = some operator := by
  unfold LogMonitor.Operated at hoperator
  cases hm : m.operator with
  | none => split at hoperator <;> simp [hm] at hoperator
  | some operator => exact ⟨operator, rfl⟩

/-- Whether a number, or comparing the change a change, passes the threshold. -/
def passes (operator : Option Operator) (threshold : ℚ) (number : Change) : Prop :=
  match operator with
  | some .gt => Change.of threshold < number
  | some .ge | some .rises => Change.of threshold ≤ number
  | some .lt => number < Change.of threshold
  | some .le => number ≤ Change.of threshold
  | some .falls => number ≤ Change.of (-threshold)
  | _ => Change.of threshold ≤ number.abs

/-- Changes are ordered as their numbers are. -/
@[simp]
theorem Change.of_le_of {a b : ℚ} : Change.of a ≤ Change.of b ↔ a ≤ b := by
  simp [Change.of]

/-- Changes are strictly ordered as their numbers are. -/
@[simp]
theorem Change.of_lt_of {a b : ℚ} : Change.of a < Change.of b ↔ a < b := by
  simp [Change.of]

/-- The worse of two is one of them. -/
theorem worse_picks {α : Type*} [LinearOrder α] (size : α → α) (operator : Option Operator) :
    Picks (worse size operator) := by
  intro a b
  unfold worse
  split
  · exact min_choice a b
  · exact min_choice a b
  · exact min_choice a b
  · split
    · exact Or.inr rfl
    · exact Or.inl rfl
  · exact max_choice a b

/-- The worse of two passes the threshold exactly when one of them does. -/
theorem passes_worse {operator : Operator} {threshold : ℚ} (a b : Change) :
    passes (some operator) threshold (worse Change.abs (some operator) a b) ↔
      passes (some operator) threshold a ∨ passes (some operator) threshold b := by
  cases operator with
  | changes =>
    simp only [passes, worse]
    split
    · rename_i hless
      exact ⟨Or.inr, fun h => h.elim (fun ha => ha.trans hless.le) id⟩
    · rename_i hless
      exact ⟨Or.inl, fun h => h.elim id fun hb => hb.trans (not_lt.mp hless)⟩
  | _ => simp [passes, worse]

/-- A group of a table fires when it isn't below the minimum and what it compares passes. -/
theorem fires_iff (hoperator : m.Operated) {threshold : ℚ} (hthreshold : m.threshold = some threshold)
    (value : ℚ) (baseline : Option ℚ) :
    fires m ⟨some value, baseline⟩ = some true ↔ m.belowMinimum value baseline = false ∧
      passes m.operator threshold (compared m ⟨some value, baseline⟩) := by
  by_cases hchange : m.comparesTheChange = true
  · have hoperators : m.operator ∈ [some .rises, some .falls, some .changes] := by
      simpa [LogMonitor.Operated, hchange] using hoperator
    simp only [fires, LogMonitor.breached, compared, hchange, if_true, hthreshold, Option.map_some,
      Option.getD_some]
    cases hbelow : m.belowMinimum value baseline
    · simp only [List.mem_cons, List.not_mem_nil, or_false] at hoperators
      rcases hoperators with h | h | h <;> simp [h, passes]
    · simp
  · have hoperators : m.operator ∈ [some .gt, some .ge, some .lt, some .le] := by
      simpa [LogMonitor.Operated, hchange] using hoperator
    have hbelow : m.belowMinimum value baseline = false := by
      simp [LogMonitor.belowMinimum, hchange]
    simp only [fires, LogMonitor.breached, compared, hchange, hthreshold, hbelow, Option.bind_some,
      Option.getD_some, true_and]
    simp only [List.mem_cons, List.not_mem_nil, or_false] at hoperators
    rcases hoperators with h | h | h | h <;> simp [h, passes]

/-- Without a threshold no group of a table fires. -/
theorem fires_ne_of_threshold (hthreshold : m.threshold = none) (value : ℚ) (baseline : Option ℚ) :
    fires m ⟨some value, baseline⟩ ≠ some true := by
  simp only [fires, LogMonitor.breached, hthreshold]
  split
  · split <;> simp
  · simp

/-- The readings the worst is picked of: those that reach the minimum, when any do. -/
def compares (m : LogMonitor) (readings : List Reading) : List Reading :=
  let big := readings.filter fun reading => !m.belowMinimum (reading.value.getD 0) reading.baseline
  if big = [] then readings else big

/-- The readings that are compared are among those found. -/
theorem mem_of_mem_compares {readings : List Reading} {reading : Reading}
    (hreading : reading ∈ compares m readings) : reading ∈ readings := by
  unfold compares at hreading
  dsimp only at hreading
  split at hreading
  · exact hreading
  · exact List.mem_of_mem_filter hreading

/-- Some group fires exactly when some compared one passes and is big enough to fire. -/
theorem exists_fires_iff (hoperator : m.Operated) {threshold : ℚ}
    (hthreshold : m.threshold = some threshold) {readings : List Reading}
    (hvalues : ∀ reading ∈ readings, reading.value.isSome) :
    (∃ reading ∈ readings, fires m reading = some true) ↔
      ∃ reading ∈ compares m readings, fires m reading = some true := by
  constructor
  · intro ⟨reading, hmem, hfires⟩
    refine ⟨reading, ?_, hfires⟩
    obtain ⟨value, hvalue⟩ := Option.isSome_iff_exists.mp (hvalues reading hmem)
    have hbelow : m.belowMinimum value reading.baseline = false :=
      ((fires_iff hoperator hthreshold value reading.baseline).mp (by rw [← hvalue]; exact hfires)).1
    have hbig : reading ∈ readings.filter fun reading =>
        !m.belowMinimum (reading.value.getD 0) reading.baseline :=
      List.mem_filter.mpr ⟨hmem, by simp [hvalue, hbelow]⟩
    unfold compares
    dsimp only
    rw [if_neg (List.ne_nil_of_mem hbig)]
    exact hbig
  · intro ⟨reading, hmem, hfires⟩
    exact ⟨reading, mem_of_mem_compares hmem, hfires⟩

/-- Of the compared readings, all are below the minimum or none is. -/
theorem belowMinimum_of_mem_compares {readings : List Reading} :
    (∀ reading ∈ compares m readings, m.belowMinimum (reading.value.getD 0) reading.baseline = true) ∨
      ∀ reading ∈ compares m readings,
        m.belowMinimum (reading.value.getD 0) reading.baseline = false := by
  unfold compares
  dsimp only
  split
  · rename_i hbig
    apply Or.inl
    intro reading hmem
    simpa using List.filter_eq_nil_iff.mp hbig reading hmem
  · apply Or.inr
    intro reading hmem
    simpa using (List.mem_filter.mp hmem).2

/-- The worst row's reading is one of a row's, and no reading it is picked of passes unless it
does. -/
theorem theWorst_spec {readings : List (String × Reading)} (hreadings : readings ≠ []) :
    ∃ reading ∈ compares m (readings.map Prod.snd), theWorst m readings = [("", reading)] ∧
      ∀ test : Change → Prop,
        (∀ a b, test (worse Change.abs m.operator a b) ↔ test a ∨ test b) →
        (test (compared m reading) ↔
          ∃ other ∈ compares m (readings.map Prod.snd), test (compared m other)) := by
  have hnonempty : compares m (readings.map Prod.snd) ≠ [] := by
    unfold compares
    dsimp only
    split
    · simpa using hreadings
    · assumption
  obtain ⟨first, rest, hcons⟩ := List.exists_cons_of_ne_nil hnonempty
  let numbers := rest.map (compared m)
  let worst := numbers.foldl (worse Change.abs m.operator) (compared m first)
  have hfold : (rest.map fun reading => (reading, compared m reading)).foldl
      (fun number candidate => worse Change.abs m.operator number candidate.2) (compared m first) =
        worst := by
    simp only [worst, numbers, List.foldl_map]
  have hmem : worst ∈ ((first :: rest).map (compared m)) :=
    (worse_picks Change.abs m.operator).foldl_mem (compared m first) numbers
  obtain ⟨reading, hreading, hworst⟩ : ∃ reading,
      ((first :: rest).map fun reading => (reading, compared m reading)).find?
        (fun candidate => candidate.2 = worst) = some (reading, compared m reading) ∧
      compared m reading = worst := by
    obtain ⟨other, hother, hsame⟩ := List.mem_map.mp hmem
    cases hfound : ((first :: rest).map fun reading => (reading, compared m reading)).find?
        (fun candidate => candidate.2 = worst) with
    | none =>
      have hnone := List.find?_eq_none.mp hfound (other, compared m other)
        (List.mem_map.mpr ⟨other, hother, rfl⟩)
      simp [hsame] at hnone
    | some candidate =>
      obtain ⟨reading, -, hcandidate⟩ := List.mem_map.mp (List.mem_of_find?_eq_some hfound)
      have hpasses := List.find?_some hfound
      subst hcandidate
      exact ⟨reading, rfl, by simpa using hpasses⟩
  refine ⟨reading, ?_, ?_, ?_⟩
  · obtain ⟨other, hother, hsame⟩ := List.mem_map.mp (List.mem_of_find?_eq_some hreading)
    rw [hcons, ← (Prod.mk.inj hsame).1]
    exact hother
  · have hbig : (if ((readings.map Prod.snd).filter fun reading =>
        !m.belowMinimum (reading.value.getD 0) reading.baseline) = [] then readings.map Prod.snd
        else (readings.map Prod.snd).filter fun reading =>
          !m.belowMinimum (reading.value.getD 0) reading.baseline) = first :: rest := hcons
    unfold theWorst
    dsimp only
    rw [hbig, List.map_cons]
    dsimp only
    rw [hfold, ← List.map_cons (f := fun reading => (reading, compared m reading)), hreading]
  · intro test htest
    rw [hworst, hcons]
    simpa [numbers] using foldl_passes_iff htest (compared m first) numbers

/-- The worst row fires exactly when some row does. -/
theorem theWorst_fires_iff (hoperator : m.Operated) {readings : List (String × Reading)}
    (hvalues : ∀ group ∈ readings, group.2.value.isSome) :
    (∃ group ∈ theWorst m readings, fires m group.2 = some true) ↔
      ∃ group ∈ readings, fires m group.2 = some true := by
  by_cases hempty : readings = []
  · simp [hempty, theWorst]
  obtain ⟨reading, hreading, hworst, hpasses⟩ := theWorst_spec (m := m) hempty
  have hsome : ∀ other ∈ readings.map Prod.snd, other.value.isSome := by
    intro other hother
    obtain ⟨group, hgroup, rfl⟩ := List.mem_map.mp hother
    exact hvalues group hgroup
  have hexists : (∃ group ∈ readings, fires m group.2 = some true) ↔
      ∃ other ∈ readings.map Prod.snd, fires m other = some true := by
    simp only [List.mem_map, exists_exists_and_eq_and]
  rw [hworst, hexists]
  simp only [List.mem_singleton, exists_eq_left]
  cases hthreshold : m.threshold with
  | none =>
    have hnever : ∀ other ∈ readings.map Prod.snd, fires m other ≠ some true := by
      intro other hother
      obtain ⟨value, hvalue⟩ := Option.isSome_iff_exists.mp (hsome other hother)
      have hne := fires_ne_of_threshold hthreshold value other.baseline
      rwa [← hvalue] at hne
    constructor
    · intro hfires
      exact absurd hfires (hnever reading (mem_of_mem_compares hreading))
    · intro hfires
      obtain ⟨other, hother, hfires⟩ := hfires
      exact absurd hfires (hnever other hother)
  | some threshold =>
    rw [exists_fires_iff hoperator hthreshold hsome]
    have hfires : ∀ other ∈ compares m (readings.map Prod.snd), fires m other = some true ↔
        m.belowMinimum (other.value.getD 0) other.baseline = false ∧
          passes m.operator threshold (compared m other) := by
      intro other hother
      obtain ⟨value, hvalue⟩ := Option.isSome_iff_exists.mp (hsome other (mem_of_mem_compares hother))
      have hvalue' : other = ⟨some value, other.baseline⟩ := by rw [← hvalue]
      rw [hvalue']
      exact fires_iff hoperator hthreshold value other.baseline
    obtain ⟨operator, hsomeOperator⟩ : ∃ operator, m.operator = some operator :=
      hoperator.exists_operator
    have htest := hpasses (passes m.operator threshold) fun a b => by
      rw [hsomeOperator]
      exact passes_worse a b
    cases @belowMinimum_of_mem_compares m (readings.map Prod.snd) with
    | inl hbelow =>
      constructor
      · intro h
        simp [hbelow reading hreading, hfires reading hreading] at h
      · intro h
        obtain ⟨other, hother, h⟩ := h
        simp [hbelow other hother, hfires other hother] at h
    | inr hbig =>
      rw [hfires reading hreading, htest]
      constructor
      · intro h
        obtain ⟨other, hother, hpass⟩ := h.2
        exact ⟨other, hother, (hfires other hother).mpr ⟨hbig other hother, hpass⟩⟩
      · intro h
        obtain ⟨other, hother, h⟩ := h
        exact ⟨hbig reading hreading, other, hother, ((hfires other hother).mp h).2⟩

/-- Some group fires when the worst reading does. -/
theorem groupsOf_fires (hoperator : m.Operated) {readings : List (String × Reading)}
    (hvalues : ∀ group ∈ readings, group.2.value.isSome) :
    (groupsOf { m with notifyByGroup := false } readings).length ≤ 1 ∧
    ((∃ group ∈ groupsOf { m with notifyByGroup := false } readings, fires m group.2 = some true) ↔
      ∃ group ∈ groupsOf { m with notifyByGroup := true } readings, fires m group.2 = some true) ∧
    ∀ group ∈ groupsOf { m with notifyByGroup := false } readings, fires m group.2 = some true →
      ∃ other ∈ groupsOf { m with notifyByGroup := true } readings,
        fires m other.2 = some true ∧ other.2 = group.2 := by
  have hworst : theWorst { m with notifyByGroup := false } readings = theWorst m readings := rfl
  unfold groupsOf
  simp only [hworst, Bool.false_eq_true, if_false, if_true]
  by_cases hempty : readings = []
  · subst hempty
    cases m.alertOnNoData <;> simp [theWorst]
  obtain ⟨reading, hreading, hone, -⟩ := theWorst_spec (m := m) hempty
  have hiff := theWorst_fires_iff hoperator hvalues
  obtain ⟨group, hgroup, hsame⟩ := List.mem_map.mp (mem_of_mem_compares hreading)
  rw [hone] at hiff ⊢
  simp only [hempty, List.cons_ne_nil, false_and, if_false]
  refine ⟨by simp, hiff, fun worst hmem hfires => ⟨group, hgroup, ?_⟩⟩
  rw [List.mem_singleton.mp hmem] at hfires ⊢
  rw [hsame]
  exact ⟨hfires, rfl⟩

/-- Each of a table's groups has a number. -/
theorem readingsOf_value {toJson : List (String × Cell) → String} {current : Answer}
    {baseline : Option Answer} {readings : String × List (String × Reading)}
    (hreadings : readingsOf toJson m current baseline = .ok readings) :
    ∀ group ∈ readings.2, group.2.value.isSome := by
  have valued {rows : List (String × ℚ)} {group : String × Reading} (before : String × ℚ → Option ℚ)
      (h : ∃ row ∈ rows, (row.1, (⟨some row.2, before row⟩ : Reading)) = group) :
      group.2.value.isSome := by
    obtain ⟨row, -, rfl⟩ := h
    rfl
  unfold readingsOf at hreadings
  cases htable : tableOf current with
  | error error => simp [htable, bind, Except.bind] at hreadings
  | ok table =>
    cases hrows : rowsOf toJson m table with
    | error error => simp [htable, hrows, bind, Except.bind] at hreadings
    | ok rows =>
      simp only [htable, hrows, bind, Except.bind] at hreadings
      split at hreadings
      · split at hreadings
        · simp [throw, throwThe, MonadExceptOf.throw] at hreadings
        · split at hreadings
          · simp at hreadings
          · split at hreadings
            · simp at hreadings
            · obtain rfl := Except.ok.inj hreadings
              exact fun group hgroup => valued _ (List.mem_map.mp hgroup)
      · obtain rfl := Except.ok.inj hreadings
        exact fun group hgroup => valued _ (List.mem_map.mp hgroup)

/-- A threshold is read as its Baseline's problem, or as what its readings give. -/
theorem readThreshold_eq (toJson : List (String × Cell) → String) (m : LogMonitor) (now retentionDays : ℤ)
    (current : Answer) (baseline : Option Answer) :
    readThreshold toJson m now retentionDays current baseline =
      (if m.comparesTheChange then m.baselinePastRetention retentionDays else none).elim
        ((readingsOf toJson m current baseline).map fun readings => {
            column := readings.1
            range := LogMonitor.window now m.rangeMinutes
            baselineRange := if m.comparesTheChange then
                some (LogMonitor.baselineWindow now m.rangeMinutes m.baseline) else none
            groups := groupsOf m readings.2 })
        fun problem => .error ("The Baseline " ++ problem ++ ".") := by
  unfold readThreshold
  cases if m.comparesTheChange then m.baselinePastRetention retentionDays else none <;> rfl

/-- A Threshold run without notify by group and one with it read the same answers, or fail alike;
the one group fires exactly when some group of the other does, with the reading of one that does. -/
theorem worstRow_fires_iff (toJson : List (String × Cell) → String) (hoperator : m.Operated)
    (now retentionDays : ℤ) (current : Answer) (baseline : Option Answer) :
    (∀ error, readThreshold toJson { m with notifyByGroup := false } now retentionDays current
        baseline = .error error ↔
      readThreshold toJson { m with notifyByGroup := true } now retentionDays current baseline =
        .error error) ∧
    ∀ worst each,
      readThreshold toJson { m with notifyByGroup := false } now retentionDays current baseline =
        .ok worst →
      readThreshold toJson { m with notifyByGroup := true } now retentionDays current baseline =
        .ok each →
      worst.groups.length ≤ 1 ∧
      ((∃ group ∈ worst.groups, fires m group.2 = some true) ↔
        ∃ group ∈ each.groups, fires m group.2 = some true) ∧
      ∀ group ∈ worst.groups, fires m group.2 = some true →
        ∃ other ∈ each.groups, fires m other.2 = some true ∧ other.2 = group.2 := by
  have hfound (notifyByGroup : Bool) :
      readThreshold toJson { m with notifyByGroup := notifyByGroup } now retentionDays current
        baseline = (if m.comparesTheChange then m.baselinePastRetention retentionDays else none).elim
          ((readingsOf toJson m current baseline).map fun readings => {
              column := readings.1
              range := LogMonitor.window now m.rangeMinutes
              baselineRange := if m.comparesTheChange then
                  some (LogMonitor.baselineWindow now m.rangeMinutes m.baseline) else none
              groups := groupsOf { m with notifyByGroup := notifyByGroup } readings.2 })
          fun problem => .error ("The Baseline " ++ problem ++ ".") :=
    readThreshold_eq toJson { m with notifyByGroup := notifyByGroup } now retentionDays current baseline
  rw [hfound, hfound]
  cases if m.comparesTheChange then m.baselinePastRetention retentionDays else none with
  | some problem => simp
  | none =>
    cases hreadings : readingsOf toJson m current baseline with
    | error error => simp [Except.map]
    | ok readings =>
      simp only [Option.elim_none, Except.map, Except.ok.injEq, reduceCtorEq, true_and, implies_true]
      intro worst each hworst heach
      subst hworst heach
      exact groupsOf_fires hoperator (readingsOf_value hreadings)

section ChangesByService

/-- Fires when a service's Logs are 50% more or fewer than the range before, of those with 10. -/
def countChanges : LogMonitor where
  name := "Count changes"
  kind := .threshold
  compare := .change
  operator := some .changes
  threshold := some 50
  baseline := some .previous
  minimum := some 10
  query := "summarize count() by service"
  project := 1
  rangeMinutes := 5
  intervalMinutes := 1
  notifyByGroup := false
  alertOnNoData := false
  disabledAt := none

/-- Each service's count. -/
def countByService (counts : List (String × ℚ)) : Answer :=
  .table {
    columns := [⟨"service", .string⟩, ⟨"count_", .number⟩]
    rows := counts.map fun count => [.string count.1, .number count.2]
    truncated := false }

/-- A group of one plain string column, as JSON. -/
def stringGroupJson : List (String × Cell) → String
  | [(name, .string value)] => "\x7b\"" ++ name ++ "\":\"" ++ value ++ "\"\x7d"
  | _ => "\x7b\x7d"

/-- The web's fall is worse than the API's rise; the jobs, new but few, can't be the worst. -/
theorem worstRow_fires_iff_changes :
    ∃ found, readThreshold stringGroupJson { countChanges with notifyByGroup := true } 600 30
        (countByService [("api", 140), ("jobs", 9), ("web", 10)])
        (some (countByService [("api", 100), ("web", 100)])) = .ok found ∧
      ∃ group ∈ found.groups, fires countChanges group.2 = some true ∧
        group.2 = ⟨some 10, some 100⟩ := by
  refine ⟨_, rfl, ?_⟩
  have hworst := ((worstRow_fires_iff stringGroupJson (m := countChanges) (by decide) 600 30
    (countByService [("api", 140), ("jobs", 9), ("web", 10)])
    (some (countByService [("api", 100), ("web", 100)]))).2 _ _ rfl rfl).2.2
  exact hworst ("", ⟨some 10, some 100⟩) (by decide +kernel) (by decide +kernel)

end ChangesByService

end SolidTrace.Monitors
