import SolidTrace.LogQuery.Copied
import SolidTrace.LogQuery.TwoValued

/-!
# Conditions on a copied Attribute

A Log passes a condition on an Attribute when its row passes the condition on a column that the Attribute
is copied to, but for one thing: contains reads an Attribute's JSON as text, and not a column's.
-/

namespace SolidTrace.LogQuery

section Alike

/-- What a WHERE takes a value for: unknown is as good as false. -/
def taken (v : Option Value) : Value := v.getD (.bool false)

/-- What is written of two expressions is alike for two rows: they are the same value, and as conditions,
negated or not, they are taken alike. -/
structure Alike (ch : ClickHouse) (row row' : Sql.Row) (t : ValueType) (w w' : Written) : Prop where
  value : w'.value.eval ch [] row' = w.value.eval ch [] row
  part : t = .dynamic → ∀ a, (w'.partsOf a).eval ch [] row' = (w.partsOf a).eval ch [] row
  json : t = .dynamic → w'.jsonText.eval ch [] row' = w.jsonText.eval ch [] row
  condition : ∀ negate, taken ((w'.condition negate).eval ch [] row') =
    taken ((w.condition negate).eval ch [] row)

variable {ch : ClickHouse} {row row' : Sql.Row} {t : ValueType}

/-- A condition is true where the column takes true. -/
theorem truth_iff_taken {v : Option Value} : truth v = some true ↔ taken v = .bool true := by
  rcases v with _ | v
  · simp [taken]
  · cases v <;> simp [taken, truth]

/-- A bool that is not true is taken as false. -/
theorem taken_of_not_holds {v : Option Value} (hbool : IsBool v) (h : ¬truth v = some true) :
    taken v = .bool false := by
  rcases isBool_iff.1 hbool with rfl | ⟨b, rfl⟩
  · rfl
  · cases b <;> simp_all [taken]

/-- A test is taken alike on both rows, negated or not. -/
theorem taken_testOf {test test' : Sql} (h : taken (test'.eval ch [] row') = taken (test.eval ch [] row))
    (negate : Bool) : taken ((testOf test' negate).eval ch [] row') =
      taken ((testOf test negate).eval ch [] row) := by
  cases negate with
  | false => exact h
  | true =>
    have hcoalesce : ∀ (r : Sql.Row) (x : Sql), (notTrue x).eval ch [] r =
        ofTruth (Kleene.not (truth (some (taken (x.eval ch [] r))))) := by
      intro r x
      cases hx : x.eval ch [] r <;> simp [notTrue, Sql.eval, Sql.evalAll, Sql.bool, Fn.eval, hx, taken]
    simp only [testOf, if_true, hcoalesce, h]

/-- Values that are the same are alike. -/
theorem alike_ofValue {v v' : Sql} (h : v'.eval ch [] row' = v.eval ch [] row) :
    Alike ch row row' t (.ofValue t v) (.ofValue t v') where
  value := h
  part _ a := by simp only [Written.ofValue, eval_dynamicPart, h]
  json _ := by simp only [Written.ofValue, eval_dynamicPart, h]
  condition negate := by
    simp only [Written.ofValue, valueCondition]
    split
    · rfl
    · exact taken_testOf (by rw [h]) negate

/-- Dynamic values whose parts are the same are alike. -/
theorem alike_ofParts {part part' : AttributeType → Sql} {json json' : Sql}
    (hpart : ∀ a, (part' a).eval ch [] row' = (part a).eval ch [] row)
    (hjson : json'.eval ch [] row' = json.eval ch [] row) :
    Alike ch row row' t (.ofParts part json) (.ofParts part' json') where
  value := by simp only [Written.ofParts, eval_dynamicOf, hpart]
  part _ := hpart
  json _ := hjson
  condition _ := by simp [Written.ofParts, valueCondition, Sql.eval]

/-- Tests that are taken alike are alike. -/
theorem alike_ofTest {test test' : Bool → Sql}
    (h : ∀ negate, taken ((test' negate).eval ch [] row') = taken ((test negate).eval ch [] row)) :
    Alike ch row row' .bool (.ofTest test) (.ofTest test') := by
  have hcoalesce : ∀ (r : Sql.Row) (x : Sql), (Sql.fn .toBool [.fn .coalesce [x, .bool false]]).eval ch [] r =
      ofTruth (truth (some (taken (x.eval ch [] r)))) := by
    intro r x
    cases hx : x.eval ch [] r <;> simp [Sql.eval, Sql.evalAll, Sql.bool, Fn.eval, hx, taken]
  have hvalue : (Written.ofTest test').value.eval ch [] row' = (Written.ofTest test).value.eval ch [] row := by
    simp only [Written.ofTest, hcoalesce, h]
  exact ⟨hvalue, by simp, by simp, h⟩

variable {w w' u u' : Written} {s : ValueType}

/-- A truth is taken as whether it is true. -/
theorem taken_ofTruth (x : Option Bool) : taken (ofTruth x) = .bool (decide (x = some true)) := by
  cases x <;> simp [taken, ofTruth]

/-- A conjunction is taken alike where its sides are. -/
theorem taken_and {x y x' y' : Sql} (hx : taken (x'.eval ch [] row') = taken (x.eval ch [] row))
    (hy : taken (y'.eval ch [] row') = taken (y.eval ch [] row)) :
    taken ((Sql.fn .and [x', y']).eval ch [] row') = taken ((Sql.fn .and [x, y]).eval ch [] row) := by
  simp only [Sql.eval, Sql.evalAll, Fn.eval, taken_ofTruth, Kleene.and_eq_true, truth_iff_taken, hx, hy]

/-- A disjunction is taken alike where its sides are. -/
theorem taken_or {x y x' y' : Sql} (hx : taken (x'.eval ch [] row') = taken (x.eval ch [] row))
    (hy : taken (y'.eval ch [] row') = taken (y.eval ch [] row)) :
    taken ((Sql.fn .or [x', y']).eval ch [] row') = taken ((Sql.fn .or [x, y]).eval ch [] row) := by
  simp only [Sql.eval, Sql.evalAll, Fn.eval, taken_ofTruth, Kleene.or_eq_true, truth_iff_taken, hx, hy]

/-- Conjunctions of what is alike are alike. -/
theorem alike_and (hw : Alike ch row row' t w w') (hu : Alike ch row row' s u u') :
    Alike ch row row' .bool (.ofTest (andCondition w.condition u.condition))
      (.ofTest (andCondition w'.condition u'.condition)) := by
  refine alike_ofTest fun negate => ?_
  cases negate with
  | false => exact taken_and (hw.condition false) (hu.condition false)
  | true => exact taken_or (hw.condition true) (hu.condition true)

/-- Disjunctions of what is alike are alike. -/
theorem alike_or (hw : Alike ch row row' t w w') (hu : Alike ch row row' s u u') :
    Alike ch row row' .bool (.ofTest (orCondition w.condition u.condition))
      (.ofTest (orCondition w'.condition u'.condition)) := by
  refine alike_ofTest fun negate => ?_
  cases negate with
  | false => exact taken_or (hw.condition false) (hu.condition false)
  | true => exact taken_and (hw.condition true) (hu.condition true)

/-- Negations of what is alike are alike. -/
theorem alike_not (hw : Alike ch row row' t w w') :
    Alike ch row row' .bool (.ofTest fun negate => w.condition !negate)
      (.ofTest fun negate => w'.condition !negate) :=
  alike_ofTest fun negate => hw.condition !negate

/-- Text matches of the same text are alike. -/
theorem alike_textMatch {op : MatchOp} {pattern : String} {caseSensitive : Bool}
    (h : w'.value.eval ch [] row' = w.value.eval ch [] row) :
    Alike ch row row' .bool (.ofTest (testOf (writeTextMatch op w.value pattern caseSensitive)))
      (.ofTest (testOf (writeTextMatch op w'.value pattern caseSensitive))) :=
  alike_ofTest (taken_testOf (by rw [eval_writeTextMatch h, eval_writeTextMatch rfl]))

/-- Tests of emptiness of what is alike are the same. -/
theorem eval_isEmpty_alike (h : Alike ch row row' t w w') :
    (writeIsEmpty t w').eval ch [] row' = (writeIsEmpty t w).eval ch [] row := by
  have hempty : ∀ {x x' : Sql}, x'.eval ch [] row' = x.eval ch [] row →
      (emptyText x').eval ch [] row' = (emptyText x).eval ch [] row := fun h => by
    rw [eval_emptyText h, eval_emptyText rfl]
  cases t
  case string => exact hempty h.value
  case dynamic =>
    have hpart := h.part rfl
    simp [writeIsEmpty, dynamicParts, Sql.conjunction, Sql.eval, Sql.evalAll, hempty (hpart .string), hpart]
  all_goals simp [writeIsEmpty, Sql.eval, Sql.evalAll, h.value]

/-- Conditions of emptiness of what is alike are alike. -/
theorem alike_isEmpty (h : Alike ch row row' t w w') :
    Alike ch row row' .bool (.ofTest (isEmptyCondition t w)) (.ofTest (isEmptyCondition t w')) := by
  refine alike_ofTest fun negate => ?_
  have hempty := eval_isEmpty_alike h
  cases negate <;> simp [isEmptyCondition, Sql.eval, Sql.evalAll, hempty]

end Alike

section Calls

variable {ch : ClickHouse} {row row' : Sql.Row} {lib : Library}

/-- What is written of an expression, as a row reads it. -/
def readingOf (ch : ClickHouse) (row : Sql.Row) (w : Written) : Reading where
  value := w.value.eval ch [] row
  part a := (w.partsOf a).eval ch [] row
  json := w.jsonText.eval ch [] row
  verdict := none

/-- What is written reads as its own reading. -/
theorem reads_readingOf (w : Written) : Reads ch [] row w (readingOf ch row w) := ⟨rfl, fun _ => rfl, rfl⟩

/-- Arguments whose values are alike for two rows, in their places. -/
inductive ArgsAlike (ch : ClickHouse) (row row' : Sql.Row) :
    List Expr → List Expr → List Written → List Written → Prop
  | nil : ArgsAlike ch row row' [] [] [] []
  | cons {x x' : Expr} {w w' : Written} {xs xs' : List Expr} {ws ws' : List Written}
      (htyp : x'.typ = x.typ) (hliteral : ∀ l, x' = .literal l ↔ x = .literal l)
      (halike : Alike ch row row' x.typ w w') (hrest : ArgsAlike ch row row' xs xs' ws ws') :
      ArgsAlike ch row row' (x :: xs) (x' :: xs') (w :: ws) (w' :: ws')

variable {t : ValueType} {w w' : Written}

/-- What is alike has one value. -/
theorem written_value (h : Alike ch row row' t w w') :
    (readingOf ch row' w').written.value = (readingOf ch row w).written.value := by
  simp only [Reading.written, readingOf, h.value]

/-- Dynamic values that are alike have one reading. -/
theorem written_dynamic (h : Alike ch row row' .dynamic w w') :
    (readingOf ch row' w').written = (readingOf ch row w).written := by
  have hpart := h.part rfl
  simp only [Reading.written, readingOf, h.value, hpart, h.json rfl]

/-- What is alike is written as one text. -/
theorem writeToString_alike (h : Alike ch row row' t w w') :
    writeToString t (readingOf ch row' w').written = writeToString t (readingOf ch row w).written := by
  cases t
  case dynamic => rw [written_dynamic h]
  all_goals simp only [writeToString, written_value h]

/-- What is alike is written as one number. -/
theorem writeToNumber_alike (h : Alike ch row row' t w w') :
    writeToNumber t (readingOf ch row' w').written = writeToNumber t (readingOf ch row w).written := by
  cases t
  case dynamic => rw [written_dynamic h]
  all_goals simp only [writeToNumber, written_value h]

/-- The rest of a text depends on whether its start is a literal only. -/
theorem substringFrom_alike {x x' : Expr} (hliteral : ∀ l, x' = .literal l ↔ x = .literal l) (s v : Sql) :
    substringFrom s x' v = substringFrom s x v := by
  by_cases h : ∃ l, x = .literal l
  · obtain ⟨l, rfl⟩ := h
    rw [(hliteral l).2 rfl]
  · have hcomputed : ∀ y : Expr, (¬∃ l, y = .literal l) →
        substringFrom s y v = substringFrom s (.negative y) v := by
      intro y hy
      cases y <;> first | rfl | exact absurd ⟨_, rfl⟩ hy
    rw [hcomputed x h, hcomputed x' fun ⟨l, hl⟩ => h ⟨l, (hliteral l).1 hl⟩]
    rfl

/-- A call of arguments that are alike is the same. -/
theorem eval_writeCall_alike {fn : ScalarFunction} {args args' : List Expr} {ws ws' : List Written}
    (h : ArgsAlike ch row row' args args' ws ws') (hcall : CallChecked lib fn args) :
    (writeCall lib fn (args'.zip ws')).eval ch [] row' = (writeCall lib fn (args.zip ws)).eval ch [] row := by
  have hreads : ∀ (r : Sql.Row) (ws : List Written),
      List.Forall₂ (Reads ch [] r) ws (ws.map (readingOf ch r)) := by
    intro r ws
    induction ws with
    | nil => exact .nil
    | cons w ws ih => exact .cons (reads_readingOf w) ih
  rw [eval_writeCall (hreads row ws), eval_writeCall (hreads row' ws')]
  rcases h with _ | ⟨ht, hl, hx, _ | ⟨ht₂, hl₂, hy, _ | ⟨ht₃, hl₃, hz, _ | _⟩⟩⟩
  · cases fn <;> cases hcall
  · have hstring := writeToString_alike hx
    have hnumber := writeToNumber_alike hx
    cases fn <;> simp only [List.map_cons, List.map_nil, List.zip_cons_cons, List.zip_nil_right,
      writeCall, ht, hstring, hnumber, written_value hx]
    case arrayLength =>
      simp only [CallChecked] at hcall
      rw [written_dynamic (hcall ▸ hx)]
  · have hvalue := written_value hx
    have hvalue₂ := written_value hy
    cases fn <;> first
      | exact hcall.elim
      | simp only [List.map_cons, List.map_nil, List.zip_cons_cons, List.zip_nil_right, writeCall,
          writeCall.binned, writeSubstring, substringFrom_alike hl₂, ht, hvalue, hvalue₂]
  · have hvalue := written_value hx
    have hvalue₂ := written_value hy
    have hvalue₃ := written_value hz
    cases fn <;> try exact hcall.elim
    case extract =>
      obtain ⟨⟨pattern, rfl, -⟩, ⟨n, rfl, -⟩, -⟩ := hcall
      obtain rfl := (hl _).2 rfl
      obtain rfl := (hl₂ _).2 rfl
      simp only [List.map_cons, List.map_nil, List.zip_cons_cons, List.zip_nil_right, writeCall, hvalue₃]
    case substring =>
      simp only [List.map_cons, List.map_nil, List.zip_cons_cons, List.zip_nil_right, writeCall,
        writeSubstring, substringFrom_alike hl₂, hvalue, hvalue₂, hvalue₃]
  · cases fn <;> exact hcall.elim

end Calls

section Rows

/-- A Log, and its row after an Attribute is copied to a column. -/
structure CopiedRow (ch : ClickHouse) (f f' : Fields) (row row' : Sql.Row) (foo c : String) : Prop where
  builtIn : ∀ name, (builtInFields name).isSome → name ≠ c →
    (f'.builtIn name).eval ch [] row' = (f.builtIn name).eval ch [] row
  column : (f'.column c).eval ch [] row' =
    tupleOf (dynamicParts.map fun a => (f.attributeOf a foo).eval ch [] row)
  part : ∀ a, Reading.partOf ((f'.column c).eval ch [] row') a = (f.attributeOf a foo).eval ch [] row
  stringColumn : ∀ column, f.stringColumn foo = some column →
    column.eval ch [] row = match (f.attributeOf .string foo).eval ch [] row with
      | some (.string s) => some (.string s)
      | _ => some (.string "")
  noColumn : ∀ name, f'.stringColumn name = none

/-- contains finds a text in the JSON text of an Attribute that is no string. -/
def FindsInJSON (ch : ClickHouse) (f : Fields) (row : Sql.Row) (foo : String) (test : String × Bool) :
    Prop :=
  (f.attributeOf .string foo).eval ch [] row = none ∧
    (writeTextMatch .contains (f.attributeOf .json foo) test.1 test.2).holds ch [] row

variable {ch : ClickHouse} {lib : Library} {f f' : Fields} {row row' : Sql.Row} {foo c : String}
  {tests : List (String × Bool)}

/-- A part of the copied column is that part of the field. -/
theorem eval_copyOf_part (lib : Library) (hrow : CopiedRow ch f f' row row' foo c) (a : AttributeType) :
    ((write lib f' (copyOf c)).partsOf a).eval ch [] row' = (f.attributeOf a foo).eval ch [] row := by
  rw [← hrow.part a]
  exact eval_dynamicPart

/-- The Attribute read without a type, and its copy. -/
theorem alike_untyped (hrow : CopiedRow ch f f' row row' foo c) :
    Alike ch row row' .dynamic (write lib f (.fieldRef foo false .dynamic)) (write lib f' (copyOf c)) where
  value := by
    simp only [copyOf, write, Written.ofValue, hrow.column, writeFieldRef, Bool.false_eq_true, if_false,
      ValueType.attributeType, eval_dynamicOf]
  part _ := eval_copyOf_part lib hrow
  json _ := eval_copyOf_part lib hrow .json
  condition _ := by
    simp [copyOf, write, Written.ofValue, writeFieldRef, valueCondition, Sql.eval]

/-- The Attribute read as a type, and that part of its copy. -/
theorem alike_part {t : ValueType} (ht : t.attributeType.isSome = true)
    (hrow : CopiedRow ch f f' row row' foo c) :
    Alike ch row row' t (write lib f (.fieldRef foo false t)) (write lib f' (.partOf (copyOf c) t)) := by
  obtain ⟨a, ha⟩ := Option.isSome_iff_exists.1 ht
  have hvalue : (write lib f' (.partOf (copyOf c) t)).value.eval ch [] row' =
      (write lib f (.fieldRef foo false t)).value.eval ch [] row := by
    simp only [write, Written.ofValue, typedPart, ha, writeFieldRef, Bool.false_eq_true, if_false]
    exact eval_copyOf_part lib hrow a
  have hne : t ≠ .dynamic := by
    rintro rfl
    cases ha
  have hcondition := alike_ofValue (t := t) hvalue
  refine ⟨hvalue, fun h => absurd h hne, fun h => absurd h hne, fun negate => ?_⟩
  exact hcondition.condition negate

/-- A built-in field that is not the column's name is alike on both rows. -/
theorem alike_builtIn {name : String} {t : ValueType} (ht : builtInFields name = some t) (hname : name ≠ c)
    (hrow : CopiedRow ch f f' row row' foo c) :
    Alike ch row row' t (write lib f (.fieldRef name true t)) (write lib f' (.fieldRef name true t)) := by
  have hvalue : (write lib f' (.fieldRef name true t)).value.eval ch [] row' =
      (write lib f (.fieldRef name true t)).value.eval ch [] row :=
    hrow.builtIn name (by simp [ht]) hname
  have hne := builtInFields_ne_dynamic ht
  exact ⟨hvalue, fun h => absurd h hne, fun h => absurd h hne, (alike_ofValue (t := t) hvalue).condition⟩

/-- An Attribute's text is its string, or its JSON where it is no string. -/
theorem eval_attributeText : (write lib f (.attributeText foo)).value.eval ch [] row =
    match (f.attributeOf .string foo).eval ch [] row with
      | some v => some v
      | none => (f.attributeOf .json foo).eval ch [] row := by
  simp only [write, Written.ofValue, writeText, Sql.eval, Sql.evalAll, Fn.eval]
  cases (f.attributeOf .string foo).eval ch [] row <;> simp

/-- contains, of an Attribute's text and of its copy's string, where it finds nothing in JSON. -/
theorem alike_contains {pattern : String} {caseSensitive : Bool}
    (hrow : CopiedRow ch f f' row row' foo c)
    (hfinds : ¬FindsInJSON ch f row foo (pattern, caseSensitive)) :
    Alike ch row row' .bool
      (write lib f (.textMatch .contains (.attributeText foo) pattern caseSensitive))
      (write lib f' (.textMatch .contains (.partOf (copyOf c) .string) pattern caseSensitive)) := by
  have hstring : (write lib f' (.partOf (copyOf c) .string)).value.eval ch [] row' =
      (f.attributeOf .string foo).eval ch [] row := eval_copyOf_part lib hrow .string
  refine alike_ofTest (taken_testOf ?_)
  rw [eval_writeTextMatch hstring, eval_writeTextMatch rfl]
  rw [eval_attributeText]
  cases hs : (f.attributeOf .string foo).eval ch [] row with
  | some v => rfl
  | none =>
    have hnot : ¬(writeTextMatch .contains (f.attributeOf .json foo) pattern caseSensitive).holds ch [] row :=
      fun h => hfinds ⟨hs, h⟩
    have hbool : IsBool ((writeTextMatch .contains (f.attributeOf .json foo) pattern caseSensitive).eval
        ch [] row) := by
      cases caseSensitive <;> exact isBool_order
    rw [Sql.holds, eval_writeTextMatch rfl] at hnot
    rw [eval_writeTextMatch rfl] at hbool
    rw [textMatch_missing, taken_of_not_holds hbool hnot]
    rfl

/-- An equality with a value that is there is taken as whether the two are one. -/
theorem taken_equals {r : Sql.Row} {v u : Sql}
    (h : v.eval ch [] r ≠ none ∨ u.eval ch [] r ≠ none) :
    taken ((Sql.fn .equals [v, u]).eval ch [] r) = .bool (decide (v.eval ch [] r = u.eval ch [] r)) := by
  cases hv : v.eval ch [] r <;> cases hu : u.eval ch [] r <;>
    simp_all [Sql.eval, Sql.evalAll, Fn.eval, taken]

/-- A distinction tells whether two values differ, a missing one included. -/
theorem eval_isDistinctFrom {r : Sql.Row} {v u : Sql} :
    (Sql.fn .isDistinctFrom [v, u]).eval ch [] r =
      some (.bool (decide (v.eval ch [] r ≠ u.eval ch [] r))) := by
  simp [Sql.eval, Sql.evalAll, Fn.eval]

/-- An inequality of values that are there tells whether they differ. -/
theorem eval_notEquals {r : Sql.Row} {v u : Sql} (hv : v.eval ch [] r ≠ none) (hu : u.eval ch [] r ≠ none) :
    (Sql.fn .notEquals [v, u]).eval ch [] r =
      some (.bool (decide (v.eval ch [] r ≠ u.eval ch [] r))) := by
  cases hv' : v.eval ch [] r <;> cases hu' : u.eval ch [] r <;>
    simp_all [Sql.eval, Sql.evalAll, Fn.eval]

/-- The column that a string Attribute is compared by equals a text just when the Attribute does. -/
theorem stringColumn_text (hrow : CopiedRow ch f f' row row' foo c) {column : Sql}
    (hcolumn : f.stringColumn foo = some column) {s : String} (hs : s ≠ "") :
    column.eval ch [] row ≠ none ∧ (column.eval ch [] row = some (.string s) ↔
      (f.attributeOf .string foo).eval ch [] row = some (.string s)) := by
  rw [hrow.stringColumn column hcolumn]
  split
  next t ht => simp [ht]
  next hother => simpa [Ne.symm hs] using hother s

/-- A comparison, where a string Attribute may be compared by a column of its own. -/
theorem alike_compare {x x' y y' : Expr} {op : CompareOp} (hrow : CopiedRow ch f f' row row' foo c)
    (hx : Copied foo c tests x x') (hy : Copied foo c tests y y')
    (hxalike : Alike ch row row' x.typ (write lib f x) (write lib f' x'))
    (hyalike : Alike ch row row' y.typ (write lib f y) (write lib f' y')) :
    Alike ch row row' .bool (write lib f (.compare x op y)) (write lib f' (.compare x' op y')) := by
  refine alike_ofTest fun negate => ?_
  unfold writeCompare
  rw [hx.typ_eq, hy.typ_eq]
  split
  · rfl
  have hnone : stringColumnCompare f' x' y' = none := by
    unfold stringColumnCompare
    simp only
    split
    · split <;> simp [hrow.noColumn]
    · rfl
  rw [hnone]
  have hvx := hxalike.value
  have hvy := hyalike.value
  cases hcolumn : stringColumnCompare f x y with
  | none =>
    cases hop : op.isEquality with
    | true =>
      simp only
      split <;> simp only [Sql.eval, Sql.evalAll, hvx, hvy]
    | false => exact taken_testOf (by simp only [Sql.eval, Sql.evalAll, hvx, hvy]) negate
  | some sides =>
    obtain ⟨column, value⟩ := sides
    cases hop : op.isEquality with
    | false => exact taken_testOf (by simp only [Sql.eval, Sql.evalAll, hvx, hvy]) negate
    | true =>
      obtain ⟨name, s, hs, hstring, rfl, hsides⟩ := stringColumnCompare_eq_some hcolumn
      -- One side is the Attribute, the other the text it is compared with.
      have hboth : name = foo ∧
          ((write lib f x).value.eval ch [] row = (write lib f y).value.eval ch [] row ↔
            (f.attributeOf .string foo).eval ch [] row = some (.string s)) ∧
          ((write lib f x).value.eval ch [] row ≠ none ∨ (write lib f y).value.eval ch [] row ≠ none) := by
        rcases hsides with ⟨rfl, rfl⟩ | ⟨rfl, rfl⟩
        · cases hx
          exact ⟨rfl, Iff.rfl, .inr nofun⟩
        · cases hy
          exact ⟨rfl, eq_comm, .inl nofun⟩
      obtain ⟨rfl, hequal, hsome⟩ := hboth
      obtain ⟨hcolumnSome, hcolumnText⟩ := stringColumn_text hrow hstring hs
      have htext : (Sql.text s).eval ch [] row = some (.string s) := by
        simp [Sql.text, Sql.eval]
      simp only
      split
      · rw [taken_equals (.inl hcolumnSome), taken_equals (by rwa [hvx, hvy])]
        simp only [htext, hvx, hvy, hcolumnText, hequal]
      · rw [eval_notEquals hcolumnSome (by simp [htext]), eval_isDistinctFrom]
        simp only [htext, hvx, hvy, ne_eq, hcolumnText, hequal]

mutual

/-- What is written of a condition and of the same read from the copy is alike. -/
theorem copied_alike (hrow : CopiedRow ch f f' row row' foo c)
    (htests : ∀ test ∈ tests, ¬FindsInJSON ch f row foo test) :
    ∀ x x' : Expr, Checked lib .logScope none x → Copied foo c tests x x' →
      Alike ch row row' x.typ (write lib f x) (write lib f' x')
  | .fieldRef name builtIn t, x', hchecked, h => by
    cases h with
    | builtIn ht hname => exact alike_builtIn ht hname hrow
    | untyped => exact alike_untyped hrow
    | part ht => exact alike_part ht hrow
  | .textMatch op x pattern caseSensitive, x', hchecked, h => by
    cases h with
    | contains htest => exact alike_contains hrow (htests _ htest)
    | textMatch hx =>
      cases hchecked with
      | textMatch hchecked _ _ =>
        exact alike_textMatch (copied_alike hrow htests x _ hchecked hx).value
  | .jsonValueText x, _, hchecked, h => by
    cases h with
    | jsonValueText hx =>
      cases hchecked with
      | jsonValueText hc hjson =>
        have hpart := (copied_alike hrow htests x _ hc hx).part (typ_of_isJSONValue hjson)
        exact alike_ofValue (by simp only [writeText, Sql.eval, Sql.evalAll, hpart])
  | .partOf x t, _, hchecked, h => by
    cases h with
    | partOf hx =>
      cases hchecked with
      | partOf hc hdynamic _ =>
        have hpart := (copied_alike hrow htests x _ hc hx).part hdynamic
        refine alike_ofValue ?_
        unfold typedPart
        split
        · exact hpart _
        · rfl
  | .literal l, _, _, h => by
    cases h with
    | literal => exact alike_ofValue (by cases l <;> rfl)
  | .compare x op y, _, hchecked, h => by
    cases h with
    | compare hx hy =>
      cases hchecked with
      | compare hcx hcy _ _ =>
        exact alike_compare hrow hx hy (copied_alike hrow htests x _ hcx hx)
          (copied_alike hrow htests y _ hcy hy)
  | .isEmpty x, _, hchecked, h => by
    cases h with
    | isEmpty hx =>
      cases hchecked with
      | isEmpty hc =>
        simp only [write, hx.typ_eq]
        exact alike_isEmpty (copied_alike hrow htests x _ hc hx)
  | .and x y, _, hchecked, h => by
    cases h with
    | and hx hy =>
      cases hchecked with
      | and hcx hcy _ _ =>
        exact alike_and (copied_alike hrow htests x _ hcx hx) (copied_alike hrow htests y _ hcy hy)
  | .or x y, _, hchecked, h => by
    cases h with
    | or hx hy =>
      cases hchecked with
      | or hcx hcy _ _ =>
        exact alike_or (copied_alike hrow htests x _ hcx hx) (copied_alike hrow htests y _ hcy hy)
  | .not x, _, hchecked, h => by
    cases h with
    | not hx =>
      cases hchecked with
      | not hc _ => exact alike_not (copied_alike hrow htests x _ hc hx)
  | .arith _ x y _, _, hchecked, h => by
    cases h with
    | arith hx hy =>
      cases hchecked with
      | arith hcx hcy _ =>
        have hxalike := copied_alike hrow htests x _ hcx hx
        have hyalike := copied_alike hrow htests y _ hcy hy
        exact alike_ofValue (by simp only [Sql.eval, Sql.evalAll, hxalike.value, hyalike.value])
  | .negative x, _, hchecked, h => by
    cases h with
    | negative hx =>
      cases hchecked with
      | negative hc _ =>
        have hvalue := (copied_alike hrow htests x _ hc hx).value
        simp only [write, hx.typ_eq]
        exact alike_ofValue (by simp only [Sql.eval, Sql.evalAll, hvalue])
  | .call fn args t, _, hchecked, h => by
    cases h with
    | call hargs =>
      cases hchecked with
      | call hcargs hcall _ =>
        exact alike_ofValue (eval_writeCall_alike (allCopied_alike hrow htests args _ hcargs hargs) hcall)
  | .parsedJSON x, _, hchecked, h => by
    cases h with
    | parsedJSON hx =>
      cases hchecked with
      | parsedJSON hc _ =>
        have hvalue := (copied_alike hrow htests x _ hc hx).value
        exact alike_ofParts (fun a => by rw [eval_parsedParts hvalue, eval_parsedParts rfl]) hvalue
  | .member x path, _, hchecked, h => by
    cases h with
    | @member _ x' _ hx =>
      cases hchecked with
      | member hc hdynamic =>
        have hjson := (copied_alike hrow htests x _ hc hx).json hdynamic
        have hmember : (writeMember (write lib f' x').jsonText path).eval ch [] row' =
            (writeMember (write lib f x).jsonText path).eval ch [] row := by
          rw [eval_writeMember path hjson, eval_writeMember path rfl]
        exact alike_ofParts
          (fun a => by rw [eval_jsonParts hmember hmember, eval_jsonParts rfl rfl]) hmember
  | .attributeText _, _, _, h => nomatch h
  | .columnRef _ _ _, _, _, h => nomatch h
  | .always, _, _, h => nomatch h
  | .aggregate _ _ _ _, _, _, h => nomatch h

/-- The arguments of a call are alike where the copy's are copies. -/
theorem allCopied_alike (hrow : CopiedRow ch f f' row row' foo c)
    (htests : ∀ test ∈ tests, ¬FindsInJSON ch f row foo test) :
    ∀ xs xs' : List Expr, (∀ x ∈ xs, Checked lib .logScope none x) → AllCopied foo c tests xs xs' →
      ArgsAlike ch row row' xs xs' (writeAll lib f xs) (writeAll lib f' xs')
  | [], _, _, h => by
    cases h
    exact .nil
  | x :: xs, _, hchecked, h => by
    cases h with
    | cons hx hxs =>
      rw [List.forall_mem_cons] at hchecked
      exact .cons hx.typ_eq (fun l => ⟨fun h => by subst h; exact hx.to_literal, fun h => by
        subst h; exact hx.of_literal⟩) (copied_alike hrow htests x _ hchecked.1 hx)
        (allCopied_alike hrow htests xs _ hchecked.2 hxs)

end

end Rows

end SolidTrace.LogQuery
