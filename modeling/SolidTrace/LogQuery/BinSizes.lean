import SolidTrace.LogQuery.Writable

/-!
# The sizes of time bins

A size is written in the Query in any unit down to ticks, of 100 nanoseconds, checked and reported in
nanoseconds, and written to SQL in whole microseconds. The three agree for sizes of whole microseconds.
-/

namespace SolidTrace.LogQuery

section Bins

/-- Whether a stage keeps or drops each Log on its own. -/
def oneByOne : Stage → Bool
  | .whereStage _ => true
  | .extendStage _ => true
  | .projectStage _ => true
  | _ => false

/-- The size of the bins that a Query's table is made bin by bin of, if it is: when its last stage is a
summarize whose first by column bins the Log's own time, and the stages before take Logs one by one. -/
def Query.bins (q : Query) : Option ℤ :=
  match q.tail.reverse, q.output with
  | .summarizeStage (col :: _) _ :: before, first :: _ =>
    let hint := (q.shape.hint col.name).bin
    if !q.table || col.name != first.name || hint == 0 || !before.all oneByOne then none
    else (binOfLogTime before col.x).filter fun size => size > 0 && size.tmod 1000 == 0 && size == hint
  | _, _ => none

/-- What an expression read after some stages, the last of them first, was made as: what the columns it
names were given. -/
def definition : List Stage → Expr → Option Expr
  | stage :: before, .columnRef name t message =>
    match made stage name with
    | .value x => definition before x
    | .kept => definition before (.columnRef name t message)
    | .lost => none
  | [], .columnRef _ _ _ => none
  | _, x => some x

/-- The size, in nanoseconds, of the bins that a time is put in by SQL. -/
def binsWritten : Sql → Option ℤ
  | .fn .toStartOfInterval [_, .value (some (.interval d))] => some (1000 * d)
  | _ => none

end Bins

section Sizes

variable (lib : Library) (fn : ScalarFunction) (e : Expr) (size : ℤ) (t : ValueType)

/-- `bin(e, size)` as compiled. -/
def binCall : Expr := .call fn [e, .literal (.timespan size)] t

/-- A time bin has the size asked for wherever its size counts: it is written to SQL as an interval
above zero of that length, and what is reported of a column that it makes is what is written. -/
structure SizeKept : Prop where
  positive : ∀ f, ∃ d, binsWritten (writeValue lib f (binCall fn e size t)) = some d ∧ 0 < d
  exact : ∀ f, binsWritten (writeValue lib f (binCall fn e size t)) = some size
  /-- The size that the bin cache is told. -/
  bins : ∀ (q : Query) (before : List Stage) (col : NamedValue) (rest aggregates : List NamedValue)
    (reported : ℤ) (f : Fields), q.tail.reverse = .summarizeStage (col :: rest) aggregates :: before →
    definition before col.x = some (binCall fn e size t) → q.bins = some reported →
    binsWritten (writeValue lib f (binCall fn e size t)) = some reported
  /-- The size in the table's columns: bins of bins stay as they were where they are a multiple. -/
  seconds : ∀ (hints : String → Option Hint) (reported : ℤ) (f : Fields),
    timeBin hints (binCall fn e size t) = some reported →
    binsWritten (writeValue lib f (binCall fn e size t)) = some reported ∨
      (timeBin hints e = some reported ∧
        ∃ d, binsWritten (writeValue lib f (binCall fn e size t)) = some d ∧ d ∣ reported)
  /-- The size that rates are counted in. -/
  rate : ∀ (before : List Stage) (columnsBy : List NamedValue) (col : NamedValue) (reported : ℤ)
    (f : Fields), rateBin before columnsBy = some (col, reported) →
    definition before col.x = some (binCall fn e size t) →
    binsWritten (writeValue lib f (binCall fn e size t)) = some reported

variable {lib fn e size t}

/-- A bin of times is written in whole microseconds. -/
theorem binsWritten_binCall {f : Fields} (hfn : fn = .bin ∨ fn = .floor) (htime : e.typ = .time) :
    binsWritten (writeValue lib f (binCall fn e size t)) = some (1000 * size.tdiv 1000) := by
  rcases hfn with rfl | rfl <;>
    simp [binCall, writeValue, write, writeAll, writeCall, writeCall.binned, htime, Written.ofValue,
      writeLiteral, binsWritten]

/-- What bins the Log's time, as its size says, is defined as a bin of that size. -/
theorem definition_of_binOfLogTime {before : List Stage} {x : Expr} {reported : ℤ}
    (h : binOfLogTime before x = some reported) :
    ∃ fn e t, definition before x = some (binCall fn e reported t) := by
  fun_induction binOfLogTime before x with
  | case1 before fn x size t hcond =>
    cases h
    refine ⟨fn, x, t, ?_⟩
    cases before <;> rfl
  | case2 => cases h
  | case3 stage before name t message x hmade ih => simpa [definition, hmade] using ih h
  | case4 stage before name t message hmade ih => simpa [definition, hmade] using ih h
  | case5 => cases h
  | case6 => cases h

/-- The size of a rate's bin is the bin's own. -/
theorem rateBin_size {before : List Stage} {columnsBy : List NamedValue} {col : NamedValue}
    {reported : ℤ} (h : rateBin before columnsBy = some (col, reported)) :
    binOfLogTime before col.x = some reported := by
  induction columnsBy with
  | nil => cases h
  | cons col' rest ih =>
    unfold rateBin at h
    split at h
    next hsize =>
      cases h
      exact hsize
    · exact ih h

/-- The bins of a Query have the size of their column. -/
theorem bins_size {q : Query} {before : List Stage} {col : NamedValue}
    {rest aggregates : List NamedValue} {reported : ℤ}
    (htail : q.tail.reverse = .summarizeStage (col :: rest) aggregates :: before)
    (h : q.bins = some reported) : binOfLogTime before col.x = some reported := by
  unfold Query.bins at h
  rw [htail] at h
  cases houtput : q.output with
  | nil => simp [houtput] at h
  | cons first others =>
    simp only [houtput] at h
    split at h
    · cases h
    · exact (Option.filter_eq_some_iff.1 h).1

/-- A bin of the cache has the size of its column. -/
theorem timeBin_binCall {hints : String → Option Hint} {reported : ℤ} (hfn : fn = .bin ∨ fn = .floor)
    (htime : e.typ = .time) (h : timeBin hints (binCall fn e size t) = some reported) :
    reported = size ∨ (timeBin hints e = some reported ∧ size ∣ reported) := by
  have hcond : ((fn == .bin || fn == .floor) && e.typ == .time) = true := by
    rcases hfn with rfl | rfl <;> simp [htime]
  simp only [binCall, timeBin, hcond, if_true] at h
  split at h
  next held hheld =>
    split at h
    next hdvd =>
      cases h
      exact .inr ⟨hheld, Int.dvd_of_tmod_eq_zero (by simpa using hdvd)⟩
    · cases h
      exact .inl rfl
  · cases h
    exact .inl rfl

/-- A bin's size is known by its expression. -/
theorem binCall_inj {fn' : ScalarFunction} {e' : Expr} {size' : ℤ} {t' : ValueType}
    (h : binCall fn e size t = binCall fn' e' size' t') : size = size' := by
  simp only [binCall, Expr.call.injEq, List.cons.injEq, Expr.literal.injEq, Literal.timespan.injEq,
    and_true] at h
  exact h.2.1.2

/-- What is written is the size, and so what is reported, where it is a whole number of microseconds. -/
theorem sizeKept_of_dvd (hfn : fn = .bin ∨ fn = .floor) (htime : e.typ = .time) (hpos : 0 < size)
    (hdvd : 1000 ∣ size) : SizeKept lib fn e size t := by
  have hexact : ∀ f, binsWritten (writeValue lib f (binCall fn e size t)) = some size := by
    intro f
    rw [binsWritten_binCall hfn htime, Int.mul_tdiv_cancel' hdvd]
  have hdefined : ∀ before (x : Expr) reported f, binOfLogTime before x = some reported →
      definition before x = some (binCall fn e size t) →
      binsWritten (writeValue lib f (binCall fn e size t)) = some reported := by
    intro before x reported f hbin hdef
    obtain ⟨fn', e', t', hdef'⟩ := definition_of_binOfLogTime hbin
    rw [hdef] at hdef'
    rw [hexact f, binCall_inj (Option.some.inj hdef')]
  exact {
    positive := fun f => ⟨size, hexact f, hpos⟩
    exact := hexact
    bins := fun q before col rest aggregates reported f htail hdef hbins =>
      hdefined before col.x reported f (bins_size htail hbins) hdef
    seconds := fun hints reported f h => by
      rcases timeBin_binCall hfn htime h with rfl | ⟨hheld, hsize⟩
      · exact .inl (hexact f)
      · exact .inr ⟨hheld, size, hexact f, hsize⟩
    rate := fun before columnsBy col reported f hrate hdef =>
      hdefined before col.x reported f (rateBin_size hrate) hdef }

variable {env : Env} {tree : Syntax.Expr} {want : ValueType} {agg : Option RateBasis}
  {s s' : CompilerState}

/-- A size that compiles is above zero, and of times. -/
theorem binCall_checked
    (h : (expr tree env want agg).run s = .ok (.call fn [e, .literal (.timespan size)] t, s'))
    (hfn : fn = .bin ∨ fn = .floor) : e.typ = .time ∧ 0 < size := by
  have hchecked := (expr_checks tree env want agg s.scope s _ s' rfl h).1
  have hcall : CallChecked env.lib fn [e, .literal (.timespan size)] := by
    cases hchecked with
    | call _ hcall _ => exact hcall
  have hbin : BinChecked e (.literal (.timespan size)) := by
    rcases hfn with rfl | rfl <;> exact hcall
  rcases hbin with ⟨htime, d, hd, hpos⟩ | ⟨-, n, hn, -⟩
  · cases hd
    exact ⟨htime, hpos⟩
  · cases hn

/-- A size that is kept is a whole number of microseconds. -/
theorem SizeKept.dvd (h : SizeKept lib fn e size t) (hfn : fn = .bin ∨ fn = .floor)
    (htime : e.typ = .time) : 1000 ∣ size := by
  have hwritten := h.exact (tailFields sourceRelation)
  rw [binsWritten_binCall hfn htime] at hwritten
  exact ⟨size.tdiv 1000, (Option.some.inj hwritten).symm⟩

/-- A time bin that compiles has the size asked for when that is a whole number of microseconds. -/
theorem sizeKept_iff
    (h : (expr tree env want agg).run s = .ok (.call fn [e, .literal (.timespan size)] t, s'))
    (hfn : fn = .bin ∨ fn = .floor) : SizeKept env.lib fn e size t ↔ 1000 ∣ size := by
  obtain ⟨htime, hpos⟩ := binCall_checked h hfn
  exact ⟨fun hkept => hkept.dvd hfn htime, sizeKept_of_dvd hfn htime hpos⟩

end Sizes

section Samples

/-- The compiler where a Query's stages begin. -/
private def firstStage : CompilerState := ⟨[], .logScope, false, [], []⟩

/-- Whether `bin(time, …)` by a timespan compiles to bins of a size. -/
private def binsBy (timespan : String) (size : ℤ) : Bool :=
  match (expr (Sample.call "bin" [Sample.field "time", Sample.timespan timespan]) Sample.env .any
    none).run firstStage with
  | .ok (.call .bin [_, .literal (.timespan d)] _, _) => d == size
  | _ => false

/-- A bin by a timespan compiles to one of its size. -/
private theorem exists_of_binsBy {timespan : String} {size : ℤ} (h : binsBy timespan size = true) :
    ∃ e t s', (expr (Sample.call "bin" [Sample.field "time", Sample.timespan timespan]) Sample.env .any
      none).run firstStage = .ok (.call .bin [e, .literal (.timespan size)] t, s') := by
  unfold binsBy at h
  split at h
  next e d t s' hrun =>
    have hd : d = size := by simpa using h
    subst hd
    exact ⟨e, t, s', hrun⟩
  · cases h

/-- Bins of `5ticks` are of 500 nanoseconds, and are written as bins of none. -/
theorem sizeKept_false_ticks : ∃ e t s',
    (expr (Sample.call "bin" [Sample.field "time", Sample.timespan "5ticks"]) Sample.env .any
      none).run firstStage = .ok (.call .bin [e, .literal (.timespan 500)] t, s') ∧
    ¬ SizeKept fewNumbers .bin e 500 t := by
  obtain ⟨e, t, s', hrun⟩ := exists_of_binsBy (show binsBy "5ticks" 500 = true by decide +kernel)
  refine ⟨e, t, s', hrun, fun hkept => ?_⟩
  have hdvd := hkept.dvd (.inl rfl) (binCall_checked hrun (.inl rfl)).1
  norm_num at hdvd

/-- Bins of `10ticks` are of one microsecond. -/
theorem sizeKept_iff_ticks : ∃ e t s',
    (expr (Sample.call "bin" [Sample.field "time", Sample.timespan "10ticks"]) Sample.env .any
      none).run firstStage = .ok (.call .bin [e, .literal (.timespan 1000)] t, s') ∧
    SizeKept fewNumbers .bin e 1000 t := by
  obtain ⟨e, t, s', hrun⟩ := exists_of_binsBy (show binsBy "10ticks" 1000 = true by decide +kernel)
  exact ⟨e, t, s', hrun, (sizeKept_iff hrun (.inl rfl)).2 (dvd_refl 1000)⟩

end Samples

end SolidTrace.LogQuery
