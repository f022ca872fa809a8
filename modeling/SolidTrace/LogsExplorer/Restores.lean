import SolidTrace.LogsExplorer.ExplorerState

/-!
# The explorer's URL restores what ran

Over any run of what a member does in the explorer: what the URL opens is what ran, so long as SQL text
stays in SQL mode. The reader drops it in the other modes, the writer does not.
-/

namespace SolidTrace.LogsExplorer

section RoundTrip

variable {dates : DateReader} {state state' : ExplorerState}

/-- The parameters that are written are read back. -/
theorem ofSearch_searchOf (state : ExplorerState) :
    URLSearchParams.ofSearch (searchOf state) = paramsOf state := by
  have hlist : (searchOf state).toList = '?' :: (FormEncoding.serialize (paramsOf state)).toList := by
    simp [searchOf]
  unfold URLSearchParams.ofSearch
  rw [hlist]
  simp only [String.ofList_toList, FormEncoding.parse_serialize]

/-- What the search of a state holds under each of its names. -/
structure Holds (state : ExplorerState) (params : URLSearchParams) : Prop where
  range : params.get "range" = match state.range with
    | .relative span => some span
    | .absolute _ _ => none
  start : params.get "from" = match state.range with
    | .relative _ => none
    | .absolute start _ => some start.toISOString
  stop : params.get "to" = match state.range with
    | .relative _ => none
    | .absolute _ stop => some stop.toISOString
  mode : params.get "mode" = some state.mode.text
  query : params.get "q" = if state.query ≠ "" then some state.query else none
  sql : params.get "sql" = if state.sql ≠ "" then some state.sql else none
  viz : params.get "viz" = if state.viz ≠ .auto then some state.viz.text else none

/-- The parameters of a state hold what the state does. -/
theorem paramsOf_holds (state : ExplorerState) : Holds state (paramsOf state) := by
  have hget : ∀ (c : Prop) [Decidable c] (name : String) (p p' : URLSearchParams),
      (if c then p else p').get name = if c then p.get name else p'.get name := by
    intro c _ name p p'
    split <;> rfl
  have hempty : ∀ name, URLSearchParams.get [] name = none := fun _ => rfl
  rcases state with ⟨range, mode, query, sql, viz⟩
  constructor <;> cases range <;>
    simp [paramsOf, hget, hempty, URLSearchParams.get_set, URLSearchParams.get_set_of_ne]

/-- The search holds the range as it is. -/
theorem rangeFromParams_holds {params : URLSearchParams} (h : Holds state params)
    (hvalid : state.range.Valid) : rangeFromParams dates params = state.range := by
  have hrange := h.range
  have hstart := h.start
  have hstop := h.stop
  unfold rangeFromParams
  cases hstate : state.range with
  | relative span =>
    rw [hstate] at hrange hvalid
    have hspan : isSpan span = true := hvalid
    simp only [hrange, hspan, ↓reduceIte]
  | absolute start stop =>
    rw [hstate] at hrange hstart hstop hvalid
    have hnot : ¬start.ms > stop.ms := not_lt.2 hvalid
    simp only [hrange, hstart, hstop, Option.bind_some, dates.read_toISOString, hnot, ↓reduceIte]

/-- A mode is found by its text. -/
theorem mode_find (mode : Mode) : modes.find? (·.text == mode.text) = some mode := by
  cases mode <;> decide

/-- A chart type is found by its text. -/
theorem viz_find (viz : Viz) : vizes.find? (·.text == viz.text) = some viz := by
  cases viz <;> decide

/-- A state's search opens the state, without SQL text out of SQL mode. -/
theorem stateFromSearch_searchOf (hvalid : state.range.Valid) :
    stateFromSearch dates (searchOf state) modes =
      { state with sql := if state.mode = .sql then state.sql else "" } := by
  have h := paramsOf_holds state
  have hrange := @rangeFromParams_holds dates _ _ h hvalid
  have hquery : (if state.query ≠ "" then some state.query else none).getD "" = state.query := by
    split <;> simp_all
  have hsql : (if state.sql ≠ "" then some state.sql else none).getD "" = state.sql := by
    split <;> simp_all
  have hviz : ((if state.viz ≠ .auto then some state.viz.text else none).bind fun viz =>
      vizes.find? (·.text == viz)).getD .auto = state.viz := by
    split
    · simp [viz_find]
    · simp_all
  unfold stateFromSearch
  simp only [ofSearch_searchOf, hrange, h.mode, h.query, h.sql, h.viz, Option.bind_some, mode_find,
    Option.getD_some, hquery, hsql, hviz]

/-- No two states have one search. -/
theorem searchOf_injective (hvalid : state.range.Valid) (hvalid' : state'.range.Valid)
    (h : searchOf state = searchOf state') (dates : DateReader) : state = state' := by
  have hparams : paramsOf state = paramsOf state' := by
    rw [← ofSearch_searchOf, h, ofSearch_searchOf]
  have hopened : stateFromSearch dates (searchOf state) modes =
      stateFromSearch dates (searchOf state') modes := by rw [h]
  rw [stateFromSearch_searchOf hvalid, stateFromSearch_searchOf hvalid'] at hopened
  have hsql : state.sql = state'.sql := by
    have hget := (paramsOf_holds state).sql
    rw [hparams, (paramsOf_holds state').sql] at hget
    split at hget <;> split at hget <;> simp_all
  cases state
  cases state'
  simp only [ExplorerState.mk.injEq] at hopened ⊢
  exact ⟨hopened.1, hopened.2.1, hopened.2.2.1, hsql, hopened.2.2.2.2⟩

end RoundTrip

section Runs

/-- What a member does in the explorer, and what the page does for them. -/
inductive Action where
  | typeQuery (query : String)
  | typeSql (sql : String)
  | pickRange (range : TimeRange)
  | switchMode (mode : Mode)
  | inBuilder (query : String) (range : TimeRange)
  | chooseViz (viz : Viz)
  | fillEmptyQuery (projectQuery : String)
  | runExplorer

/-- Whether an action picks a range that can be picked, if it picks one. -/
def Action.Valid : Action → Prop
  | .pickRange range => range.Valid
  | .inBuilder _ range => range.Valid
  | _ => True

def act (explorer : Explorer) : Action → Explorer
  | .typeQuery query => typeQuery explorer query
  | .typeSql sql => typeSql explorer sql
  | .pickRange range => pickRange explorer range
  | .switchMode mode => (switchMode explorer mode).1
  | .inBuilder query range => inBuilder explorer query range
  | .chooseViz viz => (chooseViz explorer viz).1
  | .fillEmptyQuery projectQuery => fillEmptyQuery explorer projectQuery
  | .runExplorer => (runExplorer explorer).1

/-- The explorer after actions, one after another. -/
def after (explorer : Explorer) (actions : List Action) : Explorer := actions.foldl act explorer

/-- The URL opens what ran, and a run that leaves the URL leaves what ran. -/
def Restores (dates : DateReader) (explorer : Explorer) : Prop :=
  stateFromSearch dates (searchOf explorer.current) modes = explorer.current ∧
    ((runExplorer explorer).2 = none → (runExplorer explorer).1.current = explorer.current)

/-- An action that brings no SQL text out of SQL mode: neither what ran, in another mode, nor a draft, by
a run. -/
def KeepsSqlIn (explorer : Explorer) : Action → Prop
  | .switchMode mode => mode = .sql ∨ explorer.current.sql = ""
  | .inBuilder _ _ => explorer.current.sql = ""
  | .runExplorer => explorer.draft.mode = .sql ∨ explorer.draft.sql = ""
  | _ => True

/-- The ranges of an explorer are ones that can be picked. -/
structure Ranged (explorer : Explorer) : Prop where
  current : explorer.current.range.Valid
  draft : explorer.draft.range.Valid

variable {dates : DateReader} {explorer : Explorer}

/-- A range that is read is valid. -/
theorem rangeFromParams_valid (params : URLSearchParams) : (rangeFromParams dates params).Valid := by
  have hdefault : defaultRange.Valid := by
    unfold defaultRange TimeRange.Valid
    decide
  unfold rangeFromParams
  split
  · split
    · assumption
    · exact hdefault
  · split
    · split
      · exact hdefault
      next h => exact not_lt.1 h
    · exact hdefault

/-- An explorer that opens has valid ranges. -/
theorem openExplorer_ranged (search : String) (modes : List Mode) :
    Ranged (openExplorer dates search modes) :=
  ⟨rangeFromParams_valid _, rangeFromParams_valid _⟩

/-- A draft keeps its range. -/
theorem draftIn_range (draft current : ExplorerState) : (draftIn draft current).range = draft.range := by
  unfold draftIn
  split <;> rfl

/-- A valid action leaves valid ranges. -/
theorem act_ranged (h : Ranged explorer) {action : Action} (ha : action.Valid) :
    Ranged (act explorer action) := by
  cases action with
  | typeQuery query => exact ⟨h.current, h.draft⟩
  | typeSql sql => exact ⟨h.current, h.draft⟩
  | pickRange range => exact ⟨h.current, ha⟩
  | switchMode mode =>
    refine ⟨h.current, ?_⟩
    simp only [act, switchMode, draftIn_range]
    exact h.draft
  | inBuilder query range => exact ⟨h.current, ha⟩
  | chooseViz viz => exact ⟨h.current, h.draft⟩
  | fillEmptyQuery projectQuery =>
    have hfill : ∀ (c : Prop) [Decidable c] (state : ExplorerState), state.range.Valid →
        (if c then { state with query := projectQuery } else state).range.Valid := by
      intro c _ state hstate
      split
      · exact hstate
      · exact hstate
    exact ⟨hfill _ _ h.current, hfill _ _ h.draft⟩
  | runExplorer => exact ⟨h.draft, h.draft⟩

/-- The URL restores what ran just when it holds SQL text in SQL mode alone. -/
theorem restores_iff_sql (h : Ranged explorer) :
    Restores dates explorer ↔ explorer.current.mode = .sql ∨ explorer.current.sql = "" := by
  have hrun : (runExplorer explorer).2 = none → (runExplorer explorer).1.current = explorer.current := by
    intro hpush
    have hsearch : searchOf explorer.draft = searchOf explorer.current := by
      by_contra hne
      simp [runExplorer, hne] at hpush
    exact searchOf_injective h.draft h.current hsearch dates
  rw [Restores, and_iff_left hrun, stateFromSearch_searchOf h.current]
  constructor
  · intro hopened
    have hsql := congrArg ExplorerState.sql hopened
    by_cases hmode : explorer.current.mode = .sql
    · exact .inl hmode
    · simp only [hmode, ↓reduceIte] at hsql
      exact .inr hsql.symm
  · intro hfits
    have hsql : (if explorer.current.mode = .sql then explorer.current.sql else "") =
        explorer.current.sql := by
      split
      · rfl
      next hmode => exact (hfits.resolve_left hmode).symm
    rw [hsql]

/-- One action keeps SQL text in SQL mode just when it brings none out of it. -/
theorem act_sql (h : explorer.current.mode = .sql ∨ explorer.current.sql = "") (action : Action) :
    ((act explorer action).current.mode = .sql ∨ (act explorer action).current.sql = "") ↔
      KeepsSqlIn explorer action := by
  cases action with
  | fillEmptyQuery projectQuery =>
    simp only [act, fillEmptyQuery, KeepsSqlIn, iff_true]
    split
    · exact h
    · exact h
  | switchMode mode => exact Iff.rfl
  | inBuilder query range => simp [act, inBuilder, switchMode, KeepsSqlIn]
  | runExplorer => exact Iff.rfl
  | typeQuery query => exact iff_of_true h trivial
  | typeSql sql => exact iff_of_true h trivial
  | pickRange range => exact iff_of_true h trivial
  | chooseViz viz => exact iff_of_true h trivial

/-- From an explorer that its URL restores, so does it at every moment of a run, just when no action
brings SQL text out of SQL mode. -/
theorem after_restores (actions : List Action) (hvalid : ∀ a ∈ actions, a.Valid) (h : Ranged explorer)
    (hrestores : Restores dates explorer) :
    (∀ done, done <+: actions → Restores dates (after explorer done)) ↔
      ∀ done a, done ++ [a] <+: actions → KeepsSqlIn (after explorer done) a := by
  induction actions generalizing explorer with
  | nil =>
    constructor
    · intro _ done a hprefix
      simp at hprefix
    · intro _ done hprefix
      rw [List.prefix_nil.1 hprefix]
      exact hrestores
  | cons action rest ih =>
    rw [List.forall_mem_cons] at hvalid
    have hnext := act_ranged h hvalid.1
    have hstep : Restores dates (act explorer action) ↔ KeepsSqlIn explorer action := by
      rw [restores_iff_sql hnext]
      exact act_sql ((restores_iff_sql h).1 hrestores) action
    constructor
    · intro hall done a hprefix
      have hfirst := hall [action] (by simp)
      cases done with
      | nil =>
        obtain rfl : a = action := by simpa using hprefix
        exact hstep.1 hfirst
      | cons b done =>
        obtain ⟨rfl, hrest⟩ := List.cons_prefix_cons.1 hprefix
        refine (ih hvalid.2 hnext hfirst).1 (fun done' hdone => ?_) done a hrest
        exact hall (b :: done') (List.cons_prefix_cons.2 ⟨rfl, hdone⟩)
    · intro hall done hprefix
      cases done with
      | nil => exact hrestores
      | cons b done =>
        obtain ⟨rfl, hrest⟩ := List.cons_prefix_cons.1 hprefix
        have hfirst := hstep.2 (hall [] b (by simp))
        refine (ih hvalid.2 hnext hfirst).2 (fun done' a hdone => ?_) done hrest
        exact hall (b :: done') a (List.cons_prefix_cons.2 ⟨rfl, hdone⟩)

/-- An explorer that just opened restores its state. -/
theorem openExplorer_restores (search : String) : Restores dates (openExplorer dates search modes) := by
  rw [restores_iff_sql (openExplorer_ranged search modes)]
  simp only [openExplorer, stateFromSearch]
  split
  next hmode => exact .inl hmode
  · exact .inr rfl

/-- Whatever a member does after opening any URL, the explorer's URL restores what ran at every moment,
and a run that leaves it leaves what ran, just when no action brings SQL text out of SQL mode. -/
theorem explorer_restores_iff (dates : DateReader) (search : String) (actions : List Action)
    (hvalid : ∀ a ∈ actions, a.Valid) :
    (∀ done, done <+: actions → Restores dates (after (openExplorer dates search modes) done)) ↔
      ∀ done a, done ++ [a] <+: actions →
        KeepsSqlIn (after (openExplorer dates search modes) done) a :=
  after_restores actions hvalid (openExplorer_ranged search modes) (openExplorer_restores search)

end Runs

section Samples

/-- A reader of the times that browsers write. -/
def isoDates : DateReader where
  read text := (IsoTime.read text.toList).bind fun ms =>
    if h : -8640000000000000 ≤ ms ∧ ms ≤ 8640000000000000 then some ⟨ms, h.1, h.2⟩ else none
  read_toISOString t := by
    simp [Date.toISOString, IsoTime.read_write t.low t.high, t.low, t.high]

private def selectOne : ExplorerState := ⟨.relative "1h", .sql, "", "SELECT 1", .auto⟩

/-- The address of one SQL. -/
private theorem searchOf_selectOne : searchOf selectOne = "?range=1h&mode=sql&sql=SELECT+1" := by
  decide +kernel

/-- The address opens as that SQL. -/
private theorem opened_selectOne :
    openExplorer isoDates "?range=1h&mode=sql&sql=SELECT+1" modes = ⟨selectOne, selectOne⟩ := by
  have hvalid : selectOne.range.Valid := by decide +kernel
  rw [← searchOf_selectOne, openExplorer, stateFromSearch_searchOf hvalid]
  rfl

/-- An explorer in SQL mode that runs what was typed restores it. -/
theorem explorer_restores_iff_selectOne :
    Restores isoDates
      (after (openExplorer isoDates "?range=1h&mode=sql&sql=SELECT+1" modes)
        [.typeSql "SELECT 2", .runExplorer]) := by
  apply (explorer_restores_iff isoDates _ _ (by simp [Action.Valid])).2 _ _ (List.prefix_refl _)
  intro done a hprefix
  rw [opened_selectOne]
  rcases done with _ | ⟨b, _ | ⟨c, done⟩⟩
  · obtain rfl : a = .typeSql "SELECT 2" := by simpa using hprefix
    trivial
  · obtain ⟨rfl, rfl⟩ : b = .typeSql "SELECT 2" ∧ a = .runExplorer := by simpa using hprefix
    exact .inl rfl
  · simp at hprefix

/-- Out of SQL mode, what ran still holds the SQL text, which its URL doesn't open. -/
theorem restores_false_selectOne :
    ¬Restores isoDates
      (act (openExplorer isoDates "?range=1h&mode=sql&sql=SELECT+1" modes) (.switchMode .builder)) := by
  rw [opened_selectOne]
  intro hrestores
  have hranged : Ranged (act ⟨selectOne, selectOne⟩ (.switchMode .builder)) := by
    have hvalid : selectOne.range.Valid := by decide +kernel
    exact act_ranged ⟨hvalid, hvalid⟩ trivial
  have hsql := (restores_iff_sql hranged).1 hrestores
  exact absurd hsql (by decide)

end Samples

end SolidTrace.LogsExplorer
