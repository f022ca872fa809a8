import SolidTrace.LogQuery.Filter

/-!
# Queries that match text

A Query that matches text in Logs' messages reads the text of every Log it scans. Whether it does is read
off its compiled stages, by the mark that a column keeps when it is a copy of message. The marks are what
the stages make of message, so a Query that reads message through copies of it is sized as one that reads
message itself.
-/

namespace SolidTrace.LogQuery

section Sizing

mutual

/-- Whether a test holds for an expression or any within it. -/
def anyOf (f : Expr → Bool) : Expr → Bool
  | .compare x op y => f (.compare x op y) || anyOf f x || anyOf f y
  | .textMatch op x pattern caseSensitive =>
    f (.textMatch op x pattern caseSensitive) || anyOf f x
  | .isEmpty x => f (.isEmpty x) || anyOf f x
  | .and x y => f (.and x y) || anyOf f x || anyOf f y
  | .or x y => f (.or x y) || anyOf f x || anyOf f y
  | .not x => f (.not x) || anyOf f x
  | .arith op x y t => f (.arith op x y t) || anyOf f x || anyOf f y
  | .negative x => f (.negative x) || anyOf f x
  | .partOf x t => f (.partOf x t) || anyOf f x
  | .call fn args t => f (.call fn args t) || anyOfAny f args
  | .aggregate fn (some x) percent t => f (.aggregate fn (some x) percent t) || anyOf f x
  | .parsedJSON x => f (.parsedJSON x) || anyOf f x
  | .member x path => f (.member x path) || anyOf f x
  | .jsonValueText x => f (.jsonValueText x) || anyOf f x
  | x => f x

def anyOfAny (f : Expr → Bool) : List Expr → Bool
  | [] => false
  | x :: rest => anyOf f x || anyOfAny f rest

end

/-- Whether an expression works on the text of message: tests it against a pattern, or is a scalar
function of it. -/
def readsMessageText : Expr → Bool
  | .textMatch _ x _ _ => readsMessage x
  | .call _ args _ => args.any readsMessage
  | .parsedJSON x => readsMessage x
  | _ => false

/-- The expressions of a stage. -/
def Stage.exprs : Stage → List Expr
  | .whereStage predicate => [predicate]
  | .projectStage columns => columns.map NamedValue.x
  | .extendStage columns => columns.map NamedValue.x
  | .summarizeStage columnsBy aggregates => (columnsBy ++ aggregates).map NamedValue.x
  | .distinctStage columns => columns.map NamedValue.x
  | .sortStage keys => keys.map SortKey.x
  | .topStage _ key => [key.x]
  | _ => []

/-- Whether a stage matches text in Logs' messages. -/
def Stage.matchesText : Stage → Bool
  | .searchStage _ => true
  | s => s.exprs.any (anyOf readsMessageText)

/-- Whether a Query does, in any of its stages. -/
def Query.matchesText (q : Query) : Bool := (q.head ++ q.tail).any Stage.matchesText

end Sizing

section Parts

namespace Expr

/-- The expressions an expression is made of. -/
def parts : Expr → List Expr
  | .jsonValueText x => [x]
  | .partOf x _ => [x]
  | .compare x _ y => [x, y]
  | .textMatch _ x _ _ => [x]
  | .isEmpty x => [x]
  | .and x y => [x, y]
  | .or x y => [x, y]
  | .not x => [x]
  | .arith _ x y _ => [x, y]
  | .negative x => [x]
  | .call _ args _ => args
  | .parsedJSON x => [x]
  | .member x _ => [x]
  | .aggregate _ (some x) _ _ => [x]
  | _ => []

/-- The expression made of other parts, as many as it has. -/
def withParts : Expr → List Expr → Expr
  | .jsonValueText _, [x] => .jsonValueText x
  | .partOf _ t, [x] => .partOf x t
  | .compare _ op _, [x, y] => .compare x op y
  | .textMatch op _ pattern caseSensitive, [x] => .textMatch op x pattern caseSensitive
  | .isEmpty _, [x] => .isEmpty x
  | .and _ _, [x, y] => .and x y
  | .or _ _, [x, y] => .or x y
  | .not _, [x] => .not x
  | .arith op _ _ t, [x, y] => .arith op x y t
  | .negative _, [x] => .negative x
  | .call fn _ t, args => .call fn args t
  | .parsedJSON _, [x] => .parsedJSON x
  | .member _ path, [x] => .member x path
  | .aggregate fn (some _) percent t, [x] => .aggregate fn (some x) percent t
  | x, _ => x

def isAggregate : Expr → Bool
  | .aggregate _ _ _ _ => true
  | _ => false

def isColumn : Expr → Bool
  | .columnRef _ _ _ => true
  | _ => false

/-- An expression within another, or the other itself. -/
inductive Within (x : Expr) : Expr → Prop
  | self : Within x x
  | part {y z : Expr} (hy : y ∈ z.parts) (h : Within x y) : Within x z

/-- A part of an expression is smaller than it. -/
theorem sizeOf_lt_of_mem_parts {x y : Expr} (h : y ∈ x.parts) : sizeOf y < sizeOf x := by
  cases x with
  | call fn args t =>
    have hlt : sizeOf y < sizeOf args := List.sizeOf_lt_of_mem h
    simp only [call.sizeOf_spec]
    omega
  | aggregate fn x percent t =>
    cases x with
    | none => simp [parts] at h
    | some x =>
      obtain rfl : y = x := by simpa [parts] using h
      simp only [aggregate.sizeOf_spec, Option.some.sizeOf_spec]
      omega
  | _ =>
    simp only [parts, List.mem_cons, List.not_mem_nil, or_false] at h
    try (obtain rfl | rfl := h <;> simp +arith)

/-- What holds of an expression when it does of its parts holds of every expression. -/
theorem induction_parts {P : Expr → Prop} (h : ∀ x : Expr, (∀ y ∈ x.parts, P y) → P x) (x : Expr) :
    P x :=
  h x fun y hy =>
    have := sizeOf_lt_of_mem_parts hy
    induction_parts h y
termination_by sizeOf x

end Expr

/-- The message test of an expression is its parts', but for the parts of an aggregate. -/
theorem readsMessage_eq (x : Expr) :
    readsMessage x = (x.isMessage || (!x.isAggregate && x.parts.any readsMessage)) := by
  have hargs (args : List Expr) : anyReadsMessage args = args.any readsMessage := by
    induction args with
    | nil => rfl
    | cons x rest ih => rw [anyReadsMessage, ih, List.any_cons]
  cases x <;> simp [readsMessage, Expr.isMessage, Expr.isAggregate, Expr.parts, hargs]

/-- A test holds of an expression or of one of its parts. -/
theorem anyOf_eq (f : Expr → Bool) (x : Expr) : anyOf f x = (f x || x.parts.any (anyOf f)) := by
  have hargs (args : List Expr) : anyOfAny f args = args.any (anyOf f) := by
    induction args with
    | nil => rfl
    | cons x rest ih => rw [anyOfAny, ih, List.any_cons]
  cases x with
  | aggregate fn x percent t => cases x <;> simp [anyOf, Expr.parts]
  | _ => simp [anyOf, Expr.parts, hargs, Bool.or_assoc]

/-- A test holds of an expression when it holds of something within it. -/
theorem anyOf_iff {f : Expr → Bool} {x : Expr} :
    anyOf f x = true ↔ ∃ y, y.Within x ∧ f y = true := by
  induction x using Expr.induction_parts with
  | h x ih =>
    rw [anyOf_eq, Bool.or_eq_true, List.any_eq_true]
    constructor
    · intro h
      cases h with
      | inl hself => exact ⟨x, .self, hself⟩
      | inr hpart =>
        obtain ⟨y, hy, hany⟩ := hpart
        obtain ⟨z, hz, hf⟩ := (ih y hy).mp hany
        exact ⟨z, .part hy hz, hf⟩
    · intro ⟨z, hz, hf⟩
      cases hz with
      | self => exact Or.inl hf
      | part hy h => exact Or.inr ⟨_, hy, (ih _ hy).mpr ⟨z, h, hf⟩⟩

end Parts

section Copies

/-- The columns a stage makes of its rows. -/
def Stage.columns : Stage → List NamedValue
  | .projectStage columns => columns
  | .extendStage columns => columns
  | .summarizeStage columnsBy aggregates => columnsBy ++ aggregates
  | .distinctStage columns => columns
  | _ => []

/-- An expression, read after some stages, the last of them first, is the Log's message: the Field
itself, or a column that holds it as a stage made or left it. -/
inductive CopyOfMessage : List Stage → Expr → Prop
  | message {before : List Stage} {t : ValueType} : CopyOfMessage before (.fieldRef "message" true t)
  | made {stage : Stage} {before : List Stage} {name : String} {t : ValueType} {message : Bool}
      {x : Expr} (hmade : made stage name = .value x) (hx : CopyOfMessage before x) :
      CopyOfMessage (stage :: before) (.columnRef name t message)
  | kept {stage : Stage} {before : List Stage} {name : String} {t : ValueType} {message : Bool}
      (hkept : made stage name = .kept) (h : CopyOfMessage before (.columnRef name t message)) :
      CopyOfMessage (stage :: before) (.columnRef name t message)

/-- An expression reads the Log's message other than inside an aggregate. -/
inductive ReadsMessage (before : List Stage) : Expr → Prop
  | copy {x : Expr} (h : CopyOfMessage before x) : ReadsMessage before x
  | part {x y : Expr} (haggregate : x.isAggregate = false) (hy : y ∈ x.parts)
      (h : ReadsMessage before y) : ReadsMessage before x

/-- An expression applies a text match, a scalar function or parse_json to one that reads the Log's
message. -/
def AppliesToMessage (before : List Stage) : Expr → Prop
  | .textMatch _ x _ _ => ReadsMessage before x
  | .call _ args _ => ∃ x ∈ args, ReadsMessage before x
  | .parsedJSON x => ReadsMessage before x
  | _ => False

/-- An expression is one of a stage's: what where tests, a column that project, extend, summarize or
distinct makes, a key that summarize groups by, or one that sort or top orders by. -/
inductive Stage.HasExpr : Stage → Expr → Prop
  | tested {predicate : Expr} : HasExpr (.whereStage predicate) predicate
  | projected {columns : List NamedValue} {v : NamedValue} (hv : v ∈ columns) :
      HasExpr (.projectStage columns) v.x
  | extended {columns : List NamedValue} {v : NamedValue} (hv : v ∈ columns) :
      HasExpr (.extendStage columns) v.x
  | groupedBy {columnsBy aggregates : List NamedValue} {v : NamedValue} (hv : v ∈ columnsBy) :
      HasExpr (.summarizeStage columnsBy aggregates) v.x
  | aggregated {columnsBy aggregates : List NamedValue} {v : NamedValue} (hv : v ∈ aggregates) :
      HasExpr (.summarizeStage columnsBy aggregates) v.x
  | sorted {keys : List SortKey} {key : SortKey} (hkey : key ∈ keys) : HasExpr (.sortStage keys) key.x
  | topped {n : ℕ} {key : SortKey} : HasExpr (.topStage n key) key.x
  | distinct {columns : List NamedValue} {v : NamedValue} (hv : v ∈ columns) :
      HasExpr (.distinctStage columns) v.x

/-- A stage searches, or some expression of it, at any depth, applies one of those to the message. -/
def Stage.MatchesText (before : List Stage) (s : Stage) : Prop :=
  (∃ terms, s = .searchStage terms) ∨
    ∃ x, s.HasExpr x ∧ ∃ y : Expr, y.Within x ∧ AppliesToMessage before y

/-- Some stage of a Query does. -/
def Query.MatchesText (q : Query) : Prop :=
  ∃ before s after, q.head ++ q.tail = before ++ s :: after ∧ s.MatchesText before.reverse

/-- The sizing looks at all the expressions of a stage, and at no other. -/
theorem Stage.hasExpr_iff {s : Stage} {x : Expr} : s.HasExpr x ↔ x ∈ s.exprs := by
  constructor
  · intro h
    cases h with
    | tested => exact List.mem_singleton_self _
    | projected hv => exact List.mem_map_of_mem hv
    | extended hv => exact List.mem_map_of_mem hv
    | groupedBy hv => exact List.mem_map_of_mem (List.mem_append_left _ hv)
    | aggregated hv => exact List.mem_map_of_mem (List.mem_append_right _ hv)
    | sorted hkey => exact List.mem_map_of_mem hkey
    | topped => exact List.mem_singleton_self _
    | distinct hv => exact List.mem_map_of_mem hv
  · intro h
    cases s with
    | whereStage predicate =>
      obtain rfl := List.mem_singleton.mp h
      exact .tested
    | projectStage columns =>
      obtain ⟨v, hv, rfl⟩ := List.mem_map.mp h
      exact .projected hv
    | extendStage columns =>
      obtain ⟨v, hv, rfl⟩ := List.mem_map.mp h
      exact .extended hv
    | summarizeStage columnsBy aggregates =>
      obtain ⟨v, hv, rfl⟩ := List.mem_map.mp h
      cases List.mem_append.mp hv with
      | inl hby => exact .groupedBy hby
      | inr haggregate => exact .aggregated haggregate
    | distinctStage columns =>
      obtain ⟨v, hv, rfl⟩ := List.mem_map.mp h
      exact .distinct hv
    | sortStage keys =>
      obtain ⟨key, hkey, rfl⟩ := List.mem_map.mp h
      exact .sorted hkey
    | topStage n key =>
      obtain rfl := List.mem_singleton.mp h
      exact .topped
    | searchStage | takeStage | countStage => cases h

/-- Being a copy of the message does not depend on how a column is marked. -/
theorem copyOfMessage_column {before : List Stage} {name : String} {t t' : ValueType}
    {message message' : Bool} (h : CopyOfMessage before (.columnRef name t message)) :
    CopyOfMessage before (.columnRef name t' message') := by
  induction before with
  | nil => cases h
  | cons s before ih =>
    cases h with
    | made hmade hx => exact .made hmade hx
    | kept hkept h => exact .kept hkept (ih h)

/-- A column that a stage makes is a copy when its expression is. -/
theorem copyOfMessage_made {s : Stage} {before : List Stage} {name : String} {t : ValueType}
    {message : Bool} {x : Expr} (hmade : made s name = .value x) :
    CopyOfMessage (s :: before) (.columnRef name t message) ↔ CopyOfMessage before x := by
  constructor
  · intro h
    cases h with
    | made hmade' hx =>
      rw [hmade, Made.value.injEq] at hmade'
      exact hmade' ▸ hx
    | kept hkept h => simp [hmade] at hkept
  · exact .made hmade

/-- A column that a stage keeps is a copy when it was one before. -/
theorem copyOfMessage_kept {s : Stage} {before : List Stage} {name : String} {t : ValueType}
    {message : Bool} (hkept : made s name = .kept) :
    CopyOfMessage (s :: before) (.columnRef name t message) ↔
      CopyOfMessage before (.columnRef name t message) := by
  constructor
  · intro h
    cases h with
    | made hmade hx => simp [hkept] at hmade
    | kept hkept h => exact h
  · exact .kept hkept

/-- A column that a stage loses is no copy. -/
theorem not_copyOfMessage_lost {s : Stage} {before : List Stage} {name : String} {t : ValueType}
    {message : Bool} (hlost : made s name = .lost) :
    ¬ CopyOfMessage (s :: before) (.columnRef name t message) := by
  intro h
  cases h with
  | made hmade hx => simp [hlost] at hmade
  | kept hkept h => simp [hlost] at hkept

/-- An expression reads the message when it is a copy, or reads it in one of its parts. -/
theorem readsMessage_of_parts {before : List Stage} {x : Expr} : ReadsMessage before x ↔
    CopyOfMessage before x ∨ (x.isAggregate = false ∧ ∃ y ∈ x.parts, ReadsMessage before y) := by
  constructor
  · intro h
    cases h with
    | copy h => exact Or.inl h
    | part haggregate hy h => exact Or.inr ⟨haggregate, _, hy, h⟩
  · intro h
    cases h with
    | inl h => exact .copy h
    | inr h =>
      obtain ⟨haggregate, y, hy, hreads⟩ := h
      exact .part haggregate hy hreads

end Copies

section Marks

variable {lib : Library} {scope : Scope} {agg : Option RateBasis} {before : List Stage}

/-- The columns after some stages are marked as copies of message just when they are. -/
def MarkedAsCopies (before : List Stage) (scope : Scope) : Prop :=
  ∀ name col, scope.lookup name = some col →
    (col.message = true ↔ CopyOfMessage before (.columnRef name col.t col.message))

/-- An expression is marked as the message when it is a copy of it. -/
theorem Checked.isMessage_iff {x : Expr} (h : Checked lib scope agg x)
    (hmarks : MarkedAsCopies before scope) : x.isMessage = true ↔ CopyOfMessage before x := by
  cases h with
  | builtIn hlogs hcolumn ht =>
    simp only [Expr.isMessage, Bool.true_and, beq_iff_eq]
    constructor
    · rintro rfl
      exact .message
    · intro h
      cases h
      rfl
  | @columnRef _ col hcol => exact hmarks col.name col hcol
  | _ =>
    simp only [Expr.isMessage, Bool.false_and, Bool.false_eq_true, false_iff]
    intro h
    cases h

/-- The parts of a checked expression are checked. -/
theorem Checked.parts {x y : Expr} (h : Checked lib scope agg x) (hy : y ∈ x.parts) :
    ∃ agg, Checked lib scope agg y := by
  cases h with
  | call hargs => exact ⟨agg, hargs y hy⟩
  | aggregateOf hx ht =>
    obtain rfl := List.mem_singleton.mp hy
    exact ⟨none, hx⟩
  | _ =>
    simp only [Expr.parts, List.mem_cons, List.not_mem_nil, or_false] at hy
    try (obtain rfl | rfl := hy <;> exact ⟨agg, by assumption⟩)

/-- What is within a checked expression is checked. -/
theorem Checked.within {x y : Expr} (h : Checked lib scope agg x) (hy : y.Within x) :
    ∃ agg, Checked lib scope agg y := by
  induction hy generalizing agg with
  | self => exact ⟨agg, h⟩
  | part hpart hwithin ih =>
    obtain ⟨agg', hpart'⟩ := h.parts hpart
    exact ih hpart'

/-- The compiler finds the message read where it is. -/
theorem Checked.readsMessage_iff {x : Expr} (h : Checked lib scope agg x)
    (hmarks : MarkedAsCopies before scope) : readsMessage x = true ↔ ReadsMessage before x := by
  induction x using Expr.induction_parts generalizing agg with
  | h x ih =>
    rw [readsMessage_eq, readsMessage_of_parts, Bool.or_eq_true, h.isMessage_iff hmarks,
      Bool.and_eq_true, List.any_eq_true, Bool.not_eq_true']
    apply or_congr_right
    apply and_congr_right
    intro haggregate
    apply exists_congr
    intro y
    apply and_congr_right
    intro hy
    obtain ⟨agg', hy'⟩ := h.parts hy
    exact ih y hy hy'

/-- The compiler finds the message's text worked on where it is. -/
theorem Checked.readsMessageText_iff {x : Expr} (h : Checked lib scope agg x)
    (hmarks : MarkedAsCopies before scope) :
    readsMessageText x = true ↔ AppliesToMessage before x := by
  have hpart (y : Expr) (hy : y ∈ x.parts) : readsMessage y = true ↔ ReadsMessage before y := by
    obtain ⟨agg', hy'⟩ := h.parts hy
    exact hy'.readsMessage_iff hmarks
  cases x with
  | textMatch op x pattern caseSensitive => exact hpart x (List.mem_singleton.mpr rfl)
  | call fn args t =>
    rw [readsMessageText, AppliesToMessage, List.any_eq_true]
    apply exists_congr
    intro y
    apply and_congr_right
    exact hpart y
  | parsedJSON x => exact hpart x (List.mem_singleton.mpr rfl)
  | _ => simp [readsMessageText, AppliesToMessage]

/-- The expressions of a checked stage are checked. -/
theorem StageChecked.exprs {s : Stage} {others : List Stage} (h : StageChecked lib others scope s)
    {x : Expr} (hx : x ∈ s.exprs) : ∃ agg, Checked lib scope agg x := by
  have hcolumns {agg : Option RateBasis} {columns : List NamedValue}
      (hchecked : ColumnsChecked lib scope agg columns) (hx : x ∈ columns.map NamedValue.x) :
      Checked lib scope agg x := by
    obtain ⟨col, hcol, rfl⟩ := List.mem_map.mp hx
    exact hchecked.1 col hcol
  cases s with
  | whereStage predicate =>
    obtain rfl := List.mem_singleton.mp hx
    exact ⟨none, h.1⟩
  | projectStage columns => exact ⟨none, hcolumns h hx⟩
  | extendStage columns => exact ⟨none, hcolumns h hx⟩
  | summarizeStage columnsBy aggregates =>
    rw [Stage.exprs, List.map_append, List.mem_append] at hx
    cases hx with
    | inl hx => exact ⟨none, hcolumns h.1 hx⟩
    | inr hx => exact ⟨_, hcolumns h.2.1 hx⟩
  | distinctStage columns => exact ⟨none, hcolumns h hx⟩
  | sortStage keys =>
    obtain ⟨key, hkey, rfl⟩ := List.mem_map.mp hx
    exact ⟨none, h key hkey⟩
  | topStage n key =>
    obtain rfl := List.mem_singleton.mp hx
    exact ⟨none, h.2⟩
  | searchStage terms => simp [Stage.exprs] at hx
  | takeStage n => simp [Stage.exprs] at hx
  | countStage => simp [Stage.exprs] at hx

/-- What the sizing makes of a stage, where its columns are marked. -/
theorem StageChecked.matchesText_iff {s : Stage} {others : List Stage}
    (h : StageChecked lib others scope s) (hmarks : MarkedAsCopies before scope) :
    s.matchesText = true ↔ s.MatchesText before := by
  have hexprs : s.exprs.any (anyOf readsMessageText) = true ↔
      ∃ x ∈ s.exprs, ∃ y : Expr, y.Within x ∧ AppliesToMessage before y := by
    rw [List.any_eq_true]
    apply exists_congr
    intro x
    apply and_congr_right
    intro hx
    rw [anyOf_iff]
    apply exists_congr
    intro y
    apply and_congr_right
    intro hy
    obtain ⟨agg, hx'⟩ := h.exprs hx
    obtain ⟨agg', hy'⟩ := hx'.within hy
    exact hy'.readsMessageText_iff hmarks
  simp only [Stage.MatchesText, Stage.hasExpr_iff]
  cases s with
  | searchStage terms => simp [Stage.matchesText]
  | _ => simpa [Stage.matchesText] using hexprs

/-- A column is looked up by its name. -/
theorem lookup_columnsOf (logs : Bool) (values : List NamedValue) (name : String) :
    Scope.lookup ⟨logs, columnsOf values⟩ name = (values.find? (·.name == name)).map fun v =>
      ⟨v.name, v.x.typ, v.x.isMessage⟩ := by
  rw [Scope.lookup, columnsOf, List.find?_map]
  rfl

/-- A new column stands before an old one of its name. -/
theorem find_extendColumns {old new : List Column} (hnew : (new.map Column.name).Nodup)
    (name : String) : (extendColumns old new).find? (·.name == name) =
      (new.find? (·.name == name)).or (old.find? (·.name == name)) := by
  induction new generalizing old with
  | nil => rfl
  | cons col rest ih =>
    rw [List.map_cons, List.nodup_cons] at hnew
    change (extendColumns (old.filter (·.name != col.name) ++ [col]) rest).find? _ = _
    rw [ih hnew.2]
    by_cases hname : col.name = name
    · have hrest : rest.find? (·.name == name) = none := by
        rw [List.find?_eq_none]
        intro other hother hsame
        apply hnew.1
        rw [hname, ← beq_iff_eq.mp hsame]
        exact List.mem_map_of_mem hother
      have hold : (old.filter (·.name != col.name)).find? (·.name == name) = none := by
        rw [List.find?_eq_none]
        intro other hother hsame
        have hdiffers := (List.mem_filter.mp hother).2
        simp [hname, beq_iff_eq.mp hsame] at hdiffers
      rw [hrest, List.find?_append, hold]
      simp [hname]
    · have hold : (old.filter (·.name != col.name)).find? (·.name == name) =
          old.find? (·.name == name) := by
        rw [List.find?_filter]
        congr 1
        funext other
        by_cases hother : other.name = name
        · simp [hother, Ne.symm hname]
        · simp [hother]
      rw [List.find?_append, hold]
      simp [hname]

/-- A column is found by its name. -/
theorem findColumn_eq (columns : List NamedValue) (name : String) :
    findColumn columns name = (columns.find? (·.name == name)).map NamedValue.x := rfl

/-- A column that is found is one of the columns. -/
theorem mem_of_find {columns : List NamedValue} {name : String} {v : NamedValue}
    (h : columns.find? (·.name == name) = some v) : v ∈ columns :=
  List.mem_of_find?_eq_some h

/-- The columns that a stage makes of all its rows' are marked. -/
theorem markedAsCopies_made {s : Stage} {values : List NamedValue}
    (hmarks : MarkedAsCopies before scope)
    (hmade : ∀ name v, values.find? (·.name == name) = some v → made s name = .value v.x)
    (hchecked : ∀ v ∈ values, Checked lib scope agg v.x) :
    MarkedAsCopies (s :: before) ⟨false, columnsOf values⟩ := by
  intro name col hcol
  rw [lookup_columnsOf] at hcol
  obtain ⟨v, hv, rfl⟩ := Option.map_eq_some_iff.mp hcol
  rw [copyOfMessage_made (hmade name v hv)]
  exact (hchecked v (mem_of_find hv)).isMessage_iff hmarks

/-- An aggregate is no copy of message. -/
theorem isMessage_of_hasAggregate {x : Expr} (h : hasAggregate none x = true) :
    x.isMessage = false := by
  cases x <;> simp_all [hasAggregate, Expr.isMessage]

/-- A summarize marks the columns that are copies. -/
theorem markedAsCopies_summarize {columnsBy aggregates : List NamedValue}
    {others : List Stage} (hmarks : MarkedAsCopies before scope)
    (h : StageChecked lib others scope (.summarizeStage columnsBy aggregates)) :
    MarkedAsCopies (.summarizeStage columnsBy aggregates :: before)
      ⟨false, columnsOf (columnsBy ++ aggregates)⟩ := by
  obtain ⟨hby, -, haggregates, -, -⟩ := h
  intro name col hcol
  rw [lookup_columnsOf, List.find?_append] at hcol
  cases hfind : columnsBy.find? (·.name == name) with
  | some v =>
    rw [hfind, Option.some_or, Option.map_some, Option.some.injEq] at hcol
    obtain rfl := hcol
    have hmade : made (.summarizeStage columnsBy aggregates) name = .value v.x := by
      simp [made, findColumn_eq, hfind]
    rw [copyOfMessage_made hmade]
    exact (hby.1 v (mem_of_find hfind)).isMessage_iff hmarks
  | none =>
    rw [hfind, Option.none_or] at hcol
    obtain ⟨v, hv, rfl⟩ := Option.map_eq_some_iff.mp hcol
    have hlost : made (.summarizeStage columnsBy aggregates) name = .lost := by
      simp [made, findColumn_eq, hfind]
    have hmessage := isMessage_of_hasAggregate (haggregates v (mem_of_find hv))
    simp only [hmessage, Bool.false_eq_true, false_iff]
    exact not_copyOfMessage_lost hlost

/-- An extend marks the columns that are copies. -/
theorem markedAsCopies_extend {columns : List NamedValue} (hmarks : MarkedAsCopies before scope)
    (h : ColumnsChecked lib scope agg columns) : MarkedAsCopies (.extendStage columns :: before)
      { scope with columns := extendColumns scope.columns (columnsOf columns) } := by
  have hnodup : ((columnsOf columns).map Column.name).Nodup := by
    simpa [columnsOf, Function.comp_def] using h.2
  intro name col hcol
  rw [Scope.lookup, find_extendColumns hnodup] at hcol
  have hnew := lookup_columnsOf false columns name
  rw [Scope.lookup] at hnew
  rw [hnew] at hcol
  cases hfind : columns.find? (·.name == name) with
  | some v =>
    rw [hfind, Option.map_some, Option.some_or, Option.some.injEq] at hcol
    obtain rfl := hcol
    have hmade : made (.extendStage columns) name = .value v.x := by
      simp [made, findColumn_eq, hfind]
    rw [copyOfMessage_made hmade]
    exact (h.1 v (mem_of_find hfind)).isMessage_iff hmarks
  | none =>
    rw [hfind, Option.map_none, Option.none_or] at hcol
    have hkept : made (.extendStage columns) name = .kept := by
      simp [made, findColumn_eq, hfind]
    rw [copyOfMessage_kept hkept]
    exact hmarks name col hcol

/-- A stage leaves the columns it makes and keeps marked. -/
theorem StageChecked.markedAsCopies {s : Stage} {others : List Stage}
    (h : StageChecked lib others scope s) (hmarks : MarkedAsCopies before scope) :
    MarkedAsCopies (s :: before) (s.scopeAfter scope) := by
  cases s with
  | projectStage columns =>
    apply markedAsCopies_made hmarks _ h.1
    intro name v hv
    simp [made, findColumn_eq, hv]
  | distinctStage columns =>
    apply markedAsCopies_made hmarks _ h.1
    intro name v hv
    simp [made, findColumn_eq, hv]
  | extendStage columns => exact markedAsCopies_extend hmarks h
  | summarizeStage columnsBy aggregates => exact markedAsCopies_summarize hmarks h
  | countStage =>
    intro name col hcol
    obtain rfl := List.mem_singleton.mp (List.mem_of_find?_eq_some hcol)
    simp only [Bool.false_eq_true, false_iff]
    exact not_copyOfMessage_lost rfl
  | _ =>
    intro name col hcol
    rw [copyOfMessage_kept rfl]
    exact hmarks name col hcol

/-- A Log has no columns, so none is marked. -/
theorem markedAsCopies_logScope : MarkedAsCopies before .logScope := by
  intro name col hcol
  simp [Scope.lookup, Scope.logScope] at hcol

/-- A stage of a checked tail is reached with the copies marked. -/
theorem TailChecked.stage_marked {mid after : List Stage} {s : Stage} {others : List Stage}
    (h : TailChecked lib others scope (mid ++ s :: after)) (hmarks : MarkedAsCopies before scope) :
    ∃ others scope, StageChecked lib others scope s ∧
      MarkedAsCopies (mid.reverse ++ before) scope := by
  induction mid generalizing before scope others with
  | nil => exact ⟨others, scope, h.1, hmarks⟩
  | cons first rest ih =>
    obtain ⟨others', scope', hs, hmarked⟩ := ih h.2 (h.1.markedAsCopies hmarks)
    refine ⟨others', scope', hs, ?_⟩
    rw [List.reverse_cons, List.append_assoc]
    exact hmarked

/-- Each stage of a compiled Query is checked in a scope marked as the stages before it leave it. -/
theorem QueryChecked.stage_marked {q : Query} (h : QueryChecked lib q) {before after : List Stage}
    {s : Stage} (hs : q.head ++ q.tail = before ++ s :: after) :
    ∃ others scope, StageChecked lib others scope s ∧ MarkedAsCopies before.reverse scope := by
  rw [List.append_eq_append_iff] at hs
  cases hs with
  | inl hinTail =>
    obtain ⟨mid, rfl, htail⟩ := hinTail
    have htailChecked := h.tail
    rw [htail] at htailChecked
    rw [List.reverse_append]
    exact htailChecked.stage_marked markedAsCopies_logScope
  | inr hinHead =>
    obtain ⟨mid, hhead, hmid⟩ := hinHead
    cases mid with
    | nil =>
      have htailChecked := h.tail
      rw [show q.tail = [] ++ s :: after from hmid.symm] at htailChecked
      exact htailChecked.stage_marked (@markedAsCopies_logScope before.reverse)
    | cons first rest =>
      obtain ⟨rfl, -⟩ := List.cons.inj hmid
      have hmem : s ∈ q.head := by rw [hhead]; simp
      exact ⟨[], .logScope, (h.head s hmem).2, markedAsCopies_logScope⟩

/-- A checked Query works on the message's text where one of its stages does. -/
theorem QueryChecked.matchesText_iff {q : Query} (h : QueryChecked lib q) :
    q.matchesText = true ↔ q.MatchesText := by
  unfold Query.matchesText Query.MatchesText
  rw [List.any_eq_true]
  constructor
  · intro ⟨s, hs, hmatches⟩
    obtain ⟨before, after, hsplit⟩ := List.append_of_mem hs
    obtain ⟨others, scope, hchecked, hmarks⟩ := h.stage_marked hsplit
    exact ⟨before, s, after, hsplit, (hchecked.matchesText_iff hmarks).mp hmatches⟩
  · intro ⟨before, s, after, hsplit, hmatches⟩
    obtain ⟨others, scope, hchecked, hmarks⟩ := h.stage_marked hsplit
    refine ⟨s, by rw [hsplit]; simp, (hchecked.matchesText_iff hmarks).mpr hmatches⟩

end Marks

end SolidTrace.LogQuery
