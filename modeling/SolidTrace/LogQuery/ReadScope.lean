import SolidTrace.LogQuery.Filter
import SolidTrace.LogQuery.TwoValued
import SolidTrace.LogQuery.Writable

/-!
# The Sources a Query reads

Before a Query runs, what it reads is sized from the counts of its Sources, by Service and file. The
Sources it keeps are read off its head: a Log that passes the head is of a Source that is kept.
-/

namespace SolidTrace.LogQuery

section Scope

/-- The Services and files that a Query's head keeps, `none` for any. -/
structure ReadScope where
  services : Option (List String)
  files : Option (List String)

/-- The values in both, where `none` stands for any value. -/
def intersect : Option (List String) → Option (List String) → Option (List String)
  | none, b => b
  | some a, none => some a
  | some a, some b =>
    some (a.foldl (fun both v => if b.contains v && !both.contains v then both ++ [v] else both) [])

namespace ReadScope

def keeps (s : ReadScope) (service file : String) : Bool :=
  s.services.all (·.contains service) && s.files.all (·.contains file)

/-- The scope narrowed to one file. -/
def onFile (s : ReadScope) (file : String) : ReadScope :=
  { s with files := intersect s.files (some [file]) }

end ReadScope

/-- The strings one of which a condition asks a Field to be, if that is all it asks: `name == "a"`, or
such comparisons joined by or. -/
def equalsAny (name : String) (builtIn : Bool) : Expr → Option (List String)
  | .or x y => (equalsAny name builtIn x).bind fun a => (equalsAny name builtIn y).map fun b => a ++ b
  | .compare x op y =>
    let sides := match x with
      | .literal _ => (y, x)
      | _ => (x, y)
    match sides with
    | (.fieldRef field b _, .literal (.string s)) =>
      if op != .eq || field != name || b != builtIn then none else some [s]
    | _ => none
  | _ => none

/-- The scope with a condition more. -/
def ReadScope.narrowed (s : ReadScope) (condition : Expr) : ReadScope :=
  match equalsAny "service" true condition with
  | some values => { s with services := intersect s.services (some values) }
  | none =>
    match equalsAny "file" false condition with
    | some values => { s with files := intersect s.files (some values) }
    | none => s

/-- The Services and files a Query's head keeps. -/
def Query.scope (q : Query) : ReadScope :=
  q.head.foldl (fun scope s => match s with
    | .whereStage p => (conjuncts p).foldl ReadScope.narrowed scope
    | _ => scope) ⟨none, none⟩

end Scope

section Intersect

variable {a b : Option (List String)} {v : String}

/-- A value is in both lists when each of them has it. -/
theorem mem_foldl_both (b : List String) :
    ∀ a both : List String,
      v ∈ a.foldl (fun both v => if b.contains v && !both.contains v then both ++ [v] else both) both ↔
        v ∈ both ∨ (v ∈ a ∧ v ∈ b)
  | [], both => by simp
  | w :: rest, both => by
    rw [List.foldl_cons, mem_foldl_both b rest]
    split
    next hnew =>
      simp only [Bool.and_eq_true, List.contains_iff_mem] at hnew
      simp only [List.mem_append, List.mem_cons, List.not_mem_nil, or_false]
      constructor
      · rintro ((h | rfl) | h)
        · exact .inl h
        · exact .inr ⟨.inl rfl, hnew.1⟩
        · exact .inr ⟨.inr h.1, h.2⟩
      · rintro (h | ⟨rfl | h, hb⟩)
        · exact .inl (.inl h)
        · exact .inl (.inr rfl)
        · exact .inr ⟨h, hb⟩
    next hold =>
      simp only [Bool.and_eq_true, List.contains_iff_mem, Bool.not_eq_true', not_and,
        Bool.not_eq_false] at hold
      simp only [List.mem_cons]
      constructor
      · exact fun h => h.imp id fun h => ⟨.inr h.1, h.2⟩
      · rintro (h | ⟨rfl | h, hb⟩)
        · exact .inl h
        · exact .inl (by simpa using hold hb)
        · exact .inr ⟨h, hb⟩

/-- A value is in the intersection when it is in both. -/
theorem mem_intersect :
    (intersect a b).all (·.contains v) = true ↔
      a.all (·.contains v) = true ∧ b.all (·.contains v) = true := by
  cases a with
  | none => simp [intersect]
  | some a =>
    cases b with
    | none => simp [intersect]
    | some b =>
      simp only [intersect, Option.all_some, List.contains_iff_mem]
      rw [mem_foldl_both b a []]
      simp

end Intersect

section Asked

/-- A condition that asks a Field to be one of some texts, and nothing else: the Field equal to a text,
written on either side, or two such conditions joined by or. -/
inductive AsksOneOf (name : String) (builtIn : Bool) : Expr → List String → Prop
  | fieldFirst (t : ValueType) (text : String) :
      AsksOneOf name builtIn (.compare (.fieldRef name builtIn t) .eq (.literal (.string text))) [text]
  | textFirst (t : ValueType) (text : String) :
      AsksOneOf name builtIn (.compare (.literal (.string text)) .eq (.fieldRef name builtIn t)) [text]
  | either {x y : Expr} {a b : List String} :
      AsksOneOf name builtIn x a → AsksOneOf name builtIn y b → AsksOneOf name builtIn (.or x y) (a ++ b)

/-- A condition that is one of those a predicate joins by and, at any depth. -/
inductive Conjunct : Expr → Expr → Prop
  | whole {p : Expr} (hand : ∀ x y, p ≠ .and x y) : Conjunct p p
  | left {x y c : Expr} : Conjunct x c → Conjunct (.and x y) c
  | right {x y c : Expr} : Conjunct y c → Conjunct (.and x y) c

/-- A Service that every condition of the head's where stages lets through, as far as the condition
asks the Service to be one of some texts. -/
def Query.AllowsService (q : Query) (service : String) : Prop :=
  ∀ p, .whereStage p ∈ q.head → ∀ c, Conjunct p c →
    ∀ values, AsksOneOf "service" true c values → service ∈ values

/-- A file that every condition of the head's where stages lets through, as far as the condition asks
the Attribute file to be one of some texts. -/
def Query.AllowsFile (q : Query) (file : String) : Prop :=
  ∀ p, .whereStage p ∈ q.head → ∀ c, Conjunct p c →
    ∀ values, AsksOneOf "file" false c values → file ∈ values

variable {name : String} {builtIn : Bool}

/-- A condition is read as asking for some texts exactly where it does. -/
theorem equalsAny_iff {p : Expr} {values : List String} :
    equalsAny name builtIn p = some values ↔ AsksOneOf name builtIn p values := by
  constructor
  · intro h
    fun_induction equalsAny name builtIn p generalizing values with
    | case1 x y ihx ihy =>
      simp only [Option.bind_eq_some_iff, Option.map_eq_some_iff] at h
      obtain ⟨a, ha, b, hb, rfl⟩ := h
      exact .either (ihx ha) (ihy hb)
    | case2 => cases h
    | case3 x op y sides field b t text hpair =>
      cases h
      rename_i hmatch
      simp only [Bool.or_eq_true, bne_iff_ne, ne_eq, not_or, not_not] at hmatch
      obtain ⟨⟨rfl, rfl⟩, rfl⟩ := hmatch
      unfold sides at hpair
      split at hpair <;> cases hpair
      · exact .textFirst t text
      · exact .fieldFirst t text
    | case4 => cases h
    | case5 => cases h
  · intro h
    induction h with
    | fieldFirst t text => simp [equalsAny]
    | textFirst t text => simp [equalsAny]
    | either _ _ ihx ihy => simp [equalsAny, ihx, ihy]

/-- A condition asks for some texts of one Field only. -/
theorem AsksOneOf.name_eq {name' : String} {builtIn' : Bool} {p : Expr} {a b : List String}
    (h : AsksOneOf name builtIn p a) (h' : AsksOneOf name' builtIn' p b) : name = name' := by
  induction h generalizing b with
  | fieldFirst => cases h'; rfl
  | textFirst => cases h'; rfl
  | either _ _ ihx _ =>
    cases h' with
    | either hx _ => exact ihx hx

/-- The conditions of a predicate are those it joins by and. -/
theorem mem_conjuncts {p c : Expr} : c ∈ conjuncts p ↔ Conjunct p c := by
  constructor
  · intro h
    fun_induction conjuncts p with
    | case1 x y ihx ihy =>
      cases List.mem_append.1 h with
      | inl hx => exact .left (ihx hx)
      | inr hy => exact .right (ihy hy)
    | case2 p hand =>
      rw [List.mem_singleton.1 h]
      exact .whole hand
  · intro h
    induction h with
    | @whole p hand =>
      unfold conjuncts
      split
      next x y => exact absurd rfl (hand x y)
      · exact List.mem_singleton_self _
    | left _ ih => exact List.mem_append_left _ ih
    | right _ ih => exact List.mem_append_right _ ih

/-- A condition leaves out exactly the Sources of other Services or files than it asks for. -/
theorem keeps_narrowed_iff {scope : ReadScope} {c : Expr} {service file : String} :
    (scope.narrowed c).keeps service file = true ↔ scope.keeps service file = true ∧
      (∀ values, AsksOneOf "service" true c values → service ∈ values) ∧
      (∀ values, AsksOneOf "file" false c values → file ∈ values) := by
  simp only [← equalsAny_iff]
  unfold ReadScope.narrowed
  cases hservice : equalsAny "service" true c with
  | some values =>
    have hfile : equalsAny "file" false c = none := by
      cases hfile : equalsAny "file" false c with
      | none => rfl
      | some files =>
        exact absurd ((equalsAny_iff.1 hservice).name_eq (equalsAny_iff.1 hfile)) (by decide)
    simp only [ReadScope.keeps, Bool.and_eq_true, mem_intersect, hfile]
    simp
    grind
  | none =>
    cases hfile : equalsAny "file" false c with
    | some values =>
      simp only [ReadScope.keeps, Bool.and_eq_true, mem_intersect]
      simp
      grind
    | none => simp

/-- A list of conditions leaves out the Sources that one of them does. -/
theorem keeps_conjuncts_iff {scope : ReadScope} {conditions : List Expr} {service file : String} :
    (conditions.foldl ReadScope.narrowed scope).keeps service file = true ↔
      scope.keeps service file = true ∧ ∀ c ∈ conditions,
        (∀ values, AsksOneOf "service" true c values → service ∈ values) ∧
        (∀ values, AsksOneOf "file" false c values → file ∈ values) := by
  induction conditions generalizing scope with
  | nil => simp
  | cons c rest ih =>
    rw [List.foldl_cons, ih, keeps_narrowed_iff, List.forall_mem_cons, and_assoc]

/-- The head's stages leave out the Sources that a condition of one of them does. -/
theorem keeps_stages_iff {scope : ReadScope} {head : List Stage} {service file : String} :
    (head.foldl (fun scope s => match s with
      | .whereStage p => (conjuncts p).foldl ReadScope.narrowed scope
      | _ => scope) scope).keeps service file = true ↔
      scope.keeps service file = true ∧ ∀ p, .whereStage p ∈ head → ∀ c, Conjunct p c →
        (∀ values, AsksOneOf "service" true c values → service ∈ values) ∧
        (∀ values, AsksOneOf "file" false c values → file ∈ values) := by
  induction head generalizing scope with
  | nil => simp
  | cons s rest ih =>
    rw [List.foldl_cons, ih]
    cases s with
    | whereStage p =>
      simp only [keeps_conjuncts_iff, mem_conjuncts, List.mem_cons, Stage.whereStage.injEq]
      constructor
      · intro h
        refine ⟨h.1.1, fun p' hp' => ?_⟩
        cases hp' with
        | inl heq => subst heq; exact h.1.2
        | inr hmem => exact h.2 p' hmem
      · exact fun h => ⟨⟨h.1, h.2 p (.inl rfl)⟩, fun p' hmem => h.2 p' (.inr hmem)⟩
    | _ => simp

/-- The scope keeps exactly the Sources whose Service and file every condition of the head lets
through. -/
theorem Query.keeps_scope_iff {q : Query} {service file : String} :
    q.scope.keeps service file = true ↔ q.AllowsService service ∧ q.AllowsFile file := by
  unfold Query.scope
  rw [keeps_stages_iff]
  constructor
  · exact fun h => ⟨fun p hp c hc => (h.2 p hp c hc).1, fun p hp c hc => (h.2 p hp c hc).2⟩
  · exact fun h => ⟨rfl, fun p hp c hc => ⟨h.1 p hp c hc, h.2 p hp c hc⟩⟩

/-- Narrowed to a file, a scope keeps what it kept of that file. -/
theorem ReadScope.keeps_onFile_iff {s : ReadScope} {narrowedTo service file : String} :
    (s.onFile narrowedTo).keeps service file = true ↔
      s.keeps service file = true ∧ file = narrowedTo := by
  simp only [ReadScope.keeps, ReadScope.onFile, Bool.and_eq_true, mem_intersect]
  simp [and_assoc]

end Asked

section Sources

/-- A text, or the empty one where it is missing. -/
def textOf : Option Value → String
  | some (.string s) => s
  | _ => ""

/-- The Service and file a Log comes from, the empty text for none. -/
def sourceOf (ch : ClickHouse) (cols : Columns) (row : Sql.Row) : String × String :=
  (textOf ((cols.builtIn "service").eval ch [] row),
    textOf ((cols.attributeOf .string "file").eval ch [] row))

variable {ch : ClickHouse} {lib : Library} {cols : Columns} {row : Sql.Row}

/-- The column of a Field's text. -/
def fieldText (cols : Columns) (name : String) (builtIn : Bool) : Sql :=
  if builtIn then cols.builtIn name else cols.attributeOf .string name

/-- A field that is a text is written as its column. -/
theorem writeValue_fieldRef {name : String} {builtIn : Bool} :
    writeValue lib cols.toFields (.fieldRef name builtIn .string) = fieldText cols name builtIn := by
  cases builtIn <;> simp [writeValue, write, writeFieldRef, fieldText, ValueType.attributeType]

/-- A column that a string Attribute is compared by is the text only where the Attribute is. -/
theorem attribute_of_column (hcolumns : ColumnsAgree ch [] row cols.toFields) {name value : String}
    {column : Sql} (hcolumn : cols.stringColumn name = some column) (hvalue : value ≠ "")
    (h : column.eval ch [] row = some (.string value)) :
    (cols.attributeOf .string name).eval ch [] row = some (.string value) := by
  rw [hcolumns name column hcolumn] at h
  split at h
  next s hs =>
    cases h
    exact hs
  · cases h
    exact absurd rfl hvalue

/-- A Field compared with a text is that text. -/
theorem holds_textCompare (hcolumns : ColumnsAgree ch [] row cols.toFields) {x y : Expr}
    {name value : String} {builtIn : Bool} {t : ValueType}
    (hsides : (x = .fieldRef name builtIn t ∧ y = .literal (.string value)) ∨
      (y = .fieldRef name builtIn t ∧ x = .literal (.string value)))
    (h : (writeCondition lib cols.toFields (.compare x .eq y) false).holds ch [] row) :
    (fieldText cols name builtIn).eval ch [] row = some (.string value) := by
  have hliteral : (writeValue lib cols.toFields (.literal (.string value))).eval ch [] row =
      some (.string value) := by
    simp [writeValue, write, Written.ofValue, writeLiteral, Sql.text, Sql.eval]
  simp only [writeCondition, write, Written.ofTest, writeCompare, CompareOp.isEquality, Bool.true_and] at h
  split at h
  · simp [Sql.holds_bool] at h
  next htyp =>
    have ht : t = .string := by
      rcases hsides with ⟨rfl, rfl⟩ | ⟨rfl, rfl⟩
      · simpa [Expr.typ, Literal.valueType] using htyp
      · exact Eq.symm (by simpa [Expr.typ, Literal.valueType] using htyp)
    subst ht
    split at h
    next column text _ hcolumn =>
      obtain ⟨name', s, hs, hstring, rfl, hsides'⟩ := stringColumnCompare_eq_some hcolumn
      have hboth : name' = name ∧ builtIn = false ∧ s = value := by
        rcases hsides with ⟨rfl, rfl⟩ | ⟨rfl, rfl⟩ <;> simpa [and_assoc, eq_comm] using hsides'
      obtain ⟨rfl, rfl, rfl⟩ := hboth
      have hequals := (holds_equals rfl rfl).1 (by simpa using h)
      refine attribute_of_column hcolumns hstring hs ?_
      rw [hequals.1]
      simp [Sql.text, Sql.eval]
    · have hequals := (holds_equals rfl rfl).1 (by simpa using h)
      rw [← @writeValue_fieldRef lib]
      rcases hsides with ⟨rfl, rfl⟩ | ⟨rfl, rfl⟩
      · exact hequals.1.trans hliteral
      · exact hequals.1.symm.trans hliteral
    · contradiction

/-- A condition that asks a Field to be one of some strings keeps only Logs whose Field is one. -/
theorem equalsAny_sound (hcolumns : ColumnsAgree ch [] row cols.toFields) {name : String}
    {builtIn : Bool} {p : Expr} {values : List String} (hvalues : equalsAny name builtIn p = some values)
    (h : (writeCondition lib cols.toFields p false).holds ch [] row) :
    ∃ v ∈ values, (fieldText cols name builtIn).eval ch [] row = some (.string v) := by
  fun_induction equalsAny name builtIn p generalizing values with
  | case1 x y ihx ihy =>
    simp only [Option.bind_eq_some_iff, Option.map_eq_some_iff] at hvalues
    obtain ⟨a, ha, b, hb, rfl⟩ := hvalues
    have hor : (writeCondition lib cols.toFields x false).holds ch [] row ∨
        (writeCondition lib cols.toFields y false).holds ch [] row := by
      simpa [writeCondition, write, Written.ofTest, orCondition] using h
    rcases hor with hx | hy
    · obtain ⟨v, hv, hfield⟩ := ihx ha hx
      exact ⟨v, List.mem_append_left _ hv, hfield⟩
    · obtain ⟨v, hv, hfield⟩ := ihy hb hy
      exact ⟨v, List.mem_append_right _ hv, hfield⟩
  | case2 => cases hvalues
  | case3 x op y sides field b t s hpair =>
    cases hvalues
    rename_i hmatch
    simp only [Bool.or_eq_true, bne_iff_ne, ne_eq, not_or, not_not] at hmatch
    obtain ⟨⟨rfl, rfl⟩, rfl⟩ := hmatch
    have hsides : (x = .fieldRef field b t ∧ y = .literal (.string s)) ∨
        (y = .fieldRef field b t ∧ x = .literal (.string s)) := by
      unfold sides at hpair
      split at hpair <;> cases hpair
      · exact .inr ⟨rfl, rfl⟩
      · exact .inl ⟨rfl, rfl⟩
    exact ⟨s, List.mem_singleton_self s, holds_textCompare hcolumns hsides h⟩
  | case4 => cases hvalues
  | case5 => cases hvalues

/-- A condition that a Log passes lets the Log's Service and file through. -/
theorem asked_of_passes (hcolumns : ColumnsAgree ch [] row cols.toFields) {p : Expr}
    (h : (writeCondition lib cols.toFields p false).holds ch [] row) :
    (∀ values, AsksOneOf "service" true p values → (sourceOf ch cols row).1 ∈ values) ∧
    (∀ values, AsksOneOf "file" false p values → (sourceOf ch cols row).2 ∈ values) := by
  constructor
  · intro values hasks
    obtain ⟨v, hv, hfield⟩ := equalsAny_sound hcolumns (equalsAny_iff.2 hasks) h
    have hservice : (cols.builtIn "service").eval ch [] row = some (.string v) := hfield
    simpa [sourceOf, hservice, textOf] using hv
  · intro values hasks
    obtain ⟨v, hv, hfield⟩ := equalsAny_sound hcolumns (equalsAny_iff.2 hasks) h
    have hfile : (cols.attributeOf .string "file").eval ch [] row = some (.string v) := hfield
    simpa [sourceOf, hfile, textOf] using hv

/-- Every condition of a Query's head lets the Service and file of a Log that passes it through. -/
theorem Query.allows_sourceOf {q : Query} (hcolumns : ColumnsAgree ch [] row cols.toFields)
    (hpasses : q.passesHead ch lib cols row) :
    q.AllowsService (sourceOf ch cols row).1 ∧ q.AllowsFile (sourceOf ch cols row).2 := by
  have hasked : ∀ p, .whereStage p ∈ q.head → ∀ c, Conjunct p c →
      (∀ values, AsksOneOf "service" true c values → (sourceOf ch cols row).1 ∈ values) ∧
      (∀ values, AsksOneOf "file" false c values → (sourceOf ch cols row).2 ∈ values) := by
    intro p hp c hc
    have hwhole := Query.passesHead_iff.1 hpasses _ hp _ rfl
    exact asked_of_passes hcolumns ((holds_conjuncts p).2 hwhole c (mem_conjuncts.2 hc))
  exact ⟨fun p hp c hc => (hasked p hp c hc).1, fun p hp c hc => (hasked p hp c hc).2⟩

/-- The scope of a Query keeps exactly the Sources whose Service and file every condition of the head
lets through, and narrowed to a file those of them that are of the file. The Source of a Log that passes
the head is one of them. Where the conditions contradict each other, so that they let no Service or no
file through, the scope keeps no Source and no Log passes the head. -/
theorem scope_sound (q : Query) :
    (∀ service file, q.scope.keeps service file = true ↔ q.AllowsService service ∧ q.AllowsFile file) ∧
    (∀ narrowedTo service file, (q.scope.onFile narrowedTo).keeps service file = true ↔
      q.scope.keeps service file = true ∧ file = narrowedTo) ∧
    (∀ ch lib cols row, ColumnsAgree ch [] row cols.toFields → q.passesHead ch lib cols row →
      q.scope.keeps (sourceOf ch cols row).1 (sourceOf ch cols row).2 = true ∧
      (∀ file, (sourceOf ch cols row).2 = file →
        (q.scope.onFile file).keeps (sourceOf ch cols row).1 (sourceOf ch cols row).2 = true) ∧
      q.scope.services ≠ some [] ∧ q.scope.files ≠ some []) ∧
    ((∀ service, ¬ q.AllowsService service) ∨ (∀ file, ¬ q.AllowsFile file) →
      (∀ service file, q.scope.keeps service file = false ∧
        ∀ narrowedTo, (q.scope.onFile narrowedTo).keeps service file = false) ∧
      ∀ ch lib cols row, ColumnsAgree ch [] row cols.toFields → ¬ q.passesHead ch lib cols row) := by
  refine ⟨fun service file => Query.keeps_scope_iff, fun narrowedTo service file =>
    ReadScope.keeps_onFile_iff, fun ch lib cols row hcolumns hpasses => ?_, fun hnone => ?_⟩
  · have hkeeps := Query.keeps_scope_iff.2 (Query.allows_sourceOf hcolumns hpasses)
    have hparts := hkeeps
    simp only [ReadScope.keeps, Bool.and_eq_true] at hparts
    refine ⟨hkeeps, fun file hfile => ReadScope.keeps_onFile_iff.2 ⟨hkeeps, hfile⟩, fun hservices => ?_,
      fun hfiles => ?_⟩
    · simp [hservices] at hparts
    · simp [hfiles] at hparts
  · have hcontradict : ∀ service file, ¬ (q.AllowsService service ∧ q.AllowsFile file) := by
      intro service file h
      cases hnone with
      | inl hservice => exact hservice service h.1
      | inr hfile => exact hfile file h.2
    constructor
    · intro service file
      have hkeeps : q.scope.keeps service file = false :=
        Bool.eq_false_iff.2 fun h => hcontradict service file (Query.keeps_scope_iff.1 h)
      refine ⟨hkeeps, fun narrowedTo => Bool.eq_false_iff.2 fun h => ?_⟩
      rw [(ReadScope.keeps_onFile_iff.1 h).1] at hkeeps
      cases hkeeps
    · intro ch lib cols row hcolumns hpasses
      exact hcontradict _ _ (Query.allows_sourceOf hcolumns hpasses)

/-- `where service == "api" and file in ("a.log", "b.log")`. -/
private def apiFiles : Query where
  head := [.whereStage (.and
    (.compare (.fieldRef "service" true .string) .eq (.literal (.string "api")))
    (.or (.compare (.fieldRef "file" false .string) .eq (.literal (.string "a.log")))
      (.compare (.fieldRef "file" false .string) .eq (.literal (.string "b.log")))))]
  tail := []
  fromTime := 0
  toTime := 9000
  parameters := []
  table := false
  take := none
  reads := []
  output := []
  shape := ⟨fun _ => none, false⟩

/-- A Log of the Service `api` and the file `b.log`. -/
private def apiLog : Sql.Row := fun name =>
  if name == "service" then some (.string "api")
  else if name == "file" then some (.string "b.log")
  else if name == "attributes" then some (.attributes [("file", .string "b.log")])
  else none

/-- The sample Log has the columns of the table. -/
private theorem apiLog_columnsAgree (ch : ClickHouse) :
    ColumnsAgree ch [] apiLog (clickHouseColumns none).toFields := by
  intro name column h
  simp only [clickHouseColumns] at h
  split at h
  next hname =>
    cases h
    rw [show name = "file" by simpa using hname]
    rfl
  · cases h

/-- `where service == "api" | where service == "web"`, which no Log passes. -/
private def apiAndWeb : Query :=
  { apiFiles with
    head := [.whereStage (.compare (.fieldRef "service" true .string) .eq (.literal (.string "api"))),
      .whereStage (.compare (.fieldRef "service" true .string) .eq (.literal (.string "web")))] }

/-- Two services at once allow none. -/
private theorem apiAndWeb_allowsNone (service : String) : ¬ apiAndWeb.AllowsService service := by
  intro h
  have hapi := h _ (.head _) _ (.whole fun _ _ hand => by cases hand) _ (.fieldFirst .string "api")
  have hweb := h _ (.tail _ (.head _)) _ (.whole fun _ _ hand => by cases hand) _
    (.fieldFirst .string "web")
  rw [List.mem_singleton.1 hapi] at hweb
  exact absurd (List.mem_singleton.1 hweb) (by decide)

/-- The scope of one service keeps its Log's file, and leaves another service's out. -/
theorem scope_sound_apiLog :
    (apiFiles.passesHead ⟨fun _ _ => none, fun _ _ => none⟩ fewNumbers (clickHouseColumns none) apiLog ∧
      sourceOf ⟨fun _ _ => none, fun _ _ => none⟩ (clickHouseColumns none) apiLog = ("api", "b.log") ∧
      apiFiles.scope.keeps "api" "b.log" = true ∧
      (apiFiles.scope.onFile "b.log").keeps "api" "b.log" = true) ∧
    (apiFiles.scope.keeps "api" "c.log" = false ∧ apiFiles.scope.keeps "web" "b.log" = false ∧
      (apiFiles.scope.onFile "a.log").keeps "api" "b.log" = false) ∧
    (∀ service file, apiAndWeb.scope.keeps service file = false) ∧
    ¬ apiAndWeb.passesHead ⟨fun _ _ => none, fun _ _ => none⟩ fewNumbers (clickHouseColumns none)
      apiLog := by
  have hpasses : apiFiles.passesHead ⟨fun _ _ => none, fun _ _ => none⟩ fewNumbers
      (clickHouseColumns none) apiLog := by
    intro w hw
    cases hw
    unfold Sql.holds
    decide
  have hsound := (scope_sound apiFiles).2.2.1 _ _ _ _ (apiLog_columnsAgree _) hpasses
  have hnone := (scope_sound apiAndWeb).2.2.2 (.inl apiAndWeb_allowsNone)
  exact ⟨⟨hpasses, rfl, hsound.1, hsound.2.1 "b.log" rfl⟩, ⟨by decide, by decide, by decide⟩,
    fun service file => (hnone.1 service file).1, hnone.2 _ _ _ _ (apiLog_columnsAgree _)⟩

end Sources

end SolidTrace.LogQuery
