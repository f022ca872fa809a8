import SolidTrace.LogQuery.Checked
import SolidTrace.LogQuery.Write

/-!
# The columns written SQL names

Which columns the SQL of a compiled expression names, and that it can be written: what is written
names only the columns that the Fields and columns it reads are kept in.
-/

namespace SolidTrace.LogQuery

section Sql

variable (P : Option String → Prop)

mutual

/-- Every column an expression names meets a condition, where `none` stands for SQL that can't be
written. -/
@[simp]
def Sql.OnlyNames : Sql → Prop
  | .value _ => True
  | .column _ name => P (some name)
  | .fn _ args => allOnlyNames args
  | .aggregate _ args => allOnlyNames args
  | .panic => P none

@[simp]
def allOnlyNames : List Sql → Prop
  | [] => True
  | x :: rest => x.OnlyNames ∧ allOnlyNames rest

end

variable {P}

/-- Each of some SQL names only what is allowed. -/
theorem allOnlyNames_iff (xs : List Sql) : allOnlyNames P xs ↔ ∀ x ∈ xs, x.OnlyNames P := by
  induction xs with
  | nil => simp
  | cons x rest ih => simp [ih]

/-- Two lists of SQL name only what is allowed when each does. -/
@[simp]
theorem allOnlyNames_append (xs ys : List Sql) :
    allOnlyNames P (xs ++ ys) ↔ allOnlyNames P xs ∧ allOnlyNames P ys := by
  simp only [allOnlyNames_iff, List.forall_mem_append]

/-- A text names nothing. -/
@[simp]
theorem onlyNames_text (s : String) : (Sql.text s).OnlyNames P := trivial

/-- A number names nothing. -/
@[simp]
theorem onlyNames_number (n : ℚ) : (Sql.number n).OnlyNames P := trivial

/-- A bool names nothing. -/
@[simp]
theorem onlyNames_bool (b : Bool) : (Sql.bool b).OnlyNames P := trivial

/-- A conjunction names what its sides name. -/
@[simp]
theorem onlyNames_conjunction (xs : List Sql) :
    (Sql.conjunction xs).OnlyNames P ↔ ∀ x ∈ xs, x.OnlyNames P := by
  fun_induction Sql.conjunction xs with
  | case1 => simp
  | case2 => simp
  | case3 x rest _ ih => simp [ih]

/-- A disjunction names what its sides name. -/
@[simp]
theorem onlyNames_disjunction (xs : List Sql) :
    (Sql.disjunction xs).OnlyNames P ↔ ∀ x ∈ xs, x.OnlyNames P := by
  fun_induction Sql.disjunction xs with
  | case1 => simp
  | case2 => simp
  | case3 x rest _ ih => simp [ih]

mutual

/-- What is allowed can be widened. -/
theorem Sql.OnlyNames.mono {Q : Option String → Prop} (h : ∀ name, P name → Q name) :
    ∀ x : Sql, x.OnlyNames P → x.OnlyNames Q
  | .value _, _ => trivial
  | .column _ name, hx => h (some name) hx
  | .fn _ args, hx => allOnlyNames_mono h args hx
  | .aggregate _ args, hx => allOnlyNames_mono h args hx
  | .panic, hx => h none hx

/-- What is allowed can be widened for each of some SQL. -/
theorem allOnlyNames_mono {Q : Option String → Prop} (h : ∀ name, P name → Q name) :
    ∀ xs : List Sql, allOnlyNames P xs → allOnlyNames Q xs
  | [], _ => trivial
  | x :: rest, hxs => ⟨Sql.OnlyNames.mono h x hxs.1, allOnlyNames_mono h rest hxs.2⟩

end

end Sql

section Written

/-- What is written of an expression of a type names only columns that meet a condition. -/
structure Written.OnlyNames (P : Option String → Prop) (t : ValueType) (w : Written) : Prop where
  value : w.value.OnlyNames P
  partsOf : t = .dynamic → ∀ t, (w.partsOf t).OnlyNames P
  jsonText : t = .dynamic → w.jsonText.OnlyNames P
  condition : t = .bool → ∀ negate, (w.condition negate).OnlyNames P

variable {P : Option String → Prop} {w wx wy : Written} {v x y : Sql} {t : ValueType}

/-- A part of a value names what the value names. -/
@[simp]
theorem onlyNames_dynamicPart {t : AttributeType} :
    (dynamicPart v t).OnlyNames P ↔ v.OnlyNames P := by simp [dynamicPart]

/-- A test for a missing value names what the value names. -/
@[simp]
theorem onlyNames_dynamicMissing : (dynamicMissing v).OnlyNames P ↔ v.OnlyNames P := by
  simp [dynamicMissing, dynamicParts]

/-- A dynamic value names what its parts name. -/
theorem onlyNames_dynamicOf {part : AttributeType → Sql} (h : ∀ t, (part t).OnlyNames P) :
    (dynamicOf part).OnlyNames P := by simp [dynamicOf, dynamicValue, dynamicParts, h]

/-- A test of a value names what the value names. -/
@[simp]
theorem onlyNames_testOf {negate : Bool} : (testOf v negate).OnlyNames P ↔ v.OnlyNames P := by
  cases negate <;> simp [testOf, notTrue]

/-- A condition of a bool names what the bool names. -/
theorem onlyNames_valueCondition {negate : Bool} (ht : t = .bool) (hv : v.OnlyNames P) :
    (valueCondition t v negate).OnlyNames P := by simp [valueCondition, ht, hv]

/-- What is written for a value names what the value names. -/
theorem Written.onlyNames_ofValue (hv : v.OnlyNames P) : (Written.ofValue t v).OnlyNames P t where
  value := hv
  partsOf _ _ := onlyNames_dynamicPart.2 hv
  jsonText _ := onlyNames_dynamicPart.2 hv
  condition ht _ := onlyNames_valueCondition ht hv

/-- What is written for parts names what the parts and the JSON text name. -/
theorem Written.onlyNames_ofParts {part : AttributeType → Sql} {json : Sql}
    (hpart : ∀ t, (part t).OnlyNames P) (hjson : json.OnlyNames P) :
    (Written.ofParts part json).OnlyNames P .dynamic where
  value := onlyNames_dynamicOf hpart
  partsOf _ := hpart
  jsonText _ := hjson
  condition := nofun

/-- What is written for a test names what the test names. -/
theorem Written.onlyNames_ofTest {test : Bool → Sql} (h : ∀ negate, (test negate).OnlyNames P) :
    (Written.ofTest test).OnlyNames P .bool where
  value := by simp [Written.ofTest, h]
  partsOf := nofun
  jsonText := nofun
  condition _ := h

/-- The text of parts names what the parts name. -/
theorem onlyNames_writeText {part : AttributeType → Sql} (h : ∀ t, (part t).OnlyNames P) :
    (writeText part).OnlyNames P := by simp [writeText, h]

/-- A test of an empty text names what the text names. -/
theorem onlyNames_emptyText (h : v.OnlyNames P) : (emptyText v).OnlyNames P := by
  simp [emptyText, h]

/-- A test of emptiness names what its operand names. -/
theorem onlyNames_isEmptyCondition {negate : Bool} (h : w.OnlyNames P t) :
    (isEmptyCondition t w negate).OnlyNames P := by
  have htest : (writeIsEmpty t w).OnlyNames P := by
    unfold writeIsEmpty
    split
    · exact onlyNames_emptyText h.value
    · simp [onlyNames_emptyText, h.partsOf rfl, dynamicParts]
    · simp [h.value]
  unfold isEmptyCondition
  split <;> simpa using htest

/-- A position found in any case names what the text names. -/
@[simp]
theorem onlyNames_caseInsensitivePosition {pattern : String} :
    (caseInsensitivePosition v pattern).OnlyNames P ↔ v.OnlyNames P := by
  unfold caseInsensitivePosition
  split <;> simp

/-- A text match names what the text names. -/
theorem onlyNames_writeTextMatch {op : MatchOp} {pattern : String} {caseSensitive : Bool}
    (h : v.OnlyNames P) : (writeTextMatch op v pattern caseSensitive).OnlyNames P := by
  cases op <;> cases caseSensitive <;> simp [writeTextMatch, h]

/-- The parts of a JSON value name what the value and its text name. -/
theorem onlyNames_jsonParts {raw : Sql} {t : AttributeType} (hv : v.OnlyNames P)
    (hraw : raw.OnlyNames P) : (jsonParts v raw t).OnlyNames P := by
  cases t <;> simp [jsonParts, jsonIs, jsonIsIn, hv, hraw]

/-- The parts of a parsed text name what the text names. -/
theorem onlyNames_parsedParts {t : AttributeType} (hv : v.OnlyNames P) :
    (parsedParts v t).OnlyNames P := by
  unfold parsedParts
  simp only
  have hparts : (jsonParts v (.fn .jsonExtractRaw [v]) t).OnlyNames P :=
    onlyNames_jsonParts hv (by simp [hv])
  split
  · simp [hv, hparts]
  · exact hparts

/-- The arguments of a path name what those before it name. -/
theorem onlyNames_pathArgs {args : List Sql} {path : List PathStep} (h : allOnlyNames P args) :
    allOnlyNames P (pathArgs args path).1 ∧ allOnlyNames P (pathArgs args path).2 := by
  induction path generalizing args with
  | nil => exact ⟨h, trivial⟩
  | cons step rest ih =>
    cases step with
    | key name => exact ih (by simp [h])
    | element index =>
      have hrest := @ih (args ++ [.number (if index ≥ 0 then index + 1 else index : ℤ)]) (by simp [h])
      exact ⟨hrest.1, by simp [h], hrest.2⟩

/-- A member names what the JSON text names. -/
theorem onlyNames_writeMember {json : Sql} {path : List PathStep} (h : json.OnlyNames P) :
    (writeMember json path).OnlyNames P := by
  have hargs := @onlyNames_pathArgs P [json] path ⟨h, trivial⟩
  unfold writeMember
  simp only
  split
  · exact hargs.1
  · simp only [Sql.OnlyNames, allOnlyNames, onlyNames_conjunction, onlyNames_text, and_true]
    exact ⟨(allOnlyNames_iff _).1 hargs.2, hargs.1⟩

/-- The text of a number names what the number names. -/
theorem onlyNames_numberText (h : v.OnlyNames P) : (numberText v).OnlyNames P := by
  simp [numberText, h]

/-- A text taken of an expression names what the expression names. -/
theorem onlyNames_writeToString (h : w.OnlyNames P t) : (writeToString t w).OnlyNames P := by
  cases t
  case dynamic => simp [writeToString, onlyNames_numberText, h.partsOf rfl]
  all_goals simp [writeToString, onlyNames_numberText, h.value]

/-- A number taken of an expression names what the expression names. -/
theorem onlyNames_writeToNumber (h : w.OnlyNames P t) : (writeToNumber t w).OnlyNames P := by
  cases t
  case dynamic => simp [writeToNumber, h.partsOf rfl]
  all_goals simp [writeToNumber, h.value]

/-- An extract names what its text names. -/
theorem onlyNames_writeExtract {lib : Library} {regex : String} {group : ℚ}
    (hregex : lib.regexError regex = none) (h : v.OnlyNames P) :
    (writeExtract lib regex group v).OnlyNames P := by
  unfold writeExtract
  rw [hregex]
  simp only [Option.isSome_none, Bool.false_eq_true, if_false]
  split <;> simp [h]

/-- A substring names what its text, its start and its length name. -/
theorem onlyNames_writeSubstring {start : Expr} {wstart : Sql} {length : Option Sql}
    (hv : v.OnlyNames P) (hstart : wstart.OnlyNames P) (hlength : ∀ l ∈ length, l.OnlyNames P) :
    (writeSubstring v start wstart length).OnlyNames P := by
  have hfrom : (substringFrom v start wstart).OnlyNames P := by
    unfold substringFrom
    simp only
    split
    · split <;> simp [hv, hstart]
    · simp [hv, hstart]
  cases length with
  | none => simp [writeSubstring, hv, hfrom]
  | some l => simp [writeSubstring, hv, hfrom, hlength l rfl]

/-- A rounded number names what the number and the precision name. -/
theorem onlyNames_writeRound {precision : Option Sql} (hv : v.OnlyNames P)
    (hprecision : ∀ p ∈ precision, p.OnlyNames P) : (writeRound v precision).OnlyNames P := by
  cases precision with
  | none => simp [writeRound, hv]
  | some p => simp [writeRound, hv, hprecision p rfl]

/-- A function whose arguments are checked can be written. -/
theorem onlyNames_writeCall {lib : Library} {fn : ScalarFunction} {args : List (Expr × Written)}
    (hcall : CallChecked lib fn (args.map Prod.fst))
    (h : ∀ arg ∈ args, arg.2.OnlyNames P arg.1.typ) : (writeCall lib fn args).OnlyNames P := by
  have hbinned : ∀ x size : Expr × Written, x.2.OnlyNames P x.1.typ → size.2.OnlyNames P size.1.typ →
      (writeCall.binned x size).OnlyNames P := by
    intro x size hx hsize
    unfold writeCall.binned
    split <;> simp [hx.value, hsize.value]
  match fn, args, hcall, h with
  | .tostring, [x], _, h => exact onlyNames_writeToString (h x (by simp))
  | .tolower, [x], _, h => simp [writeCall, (h x (by simp)).value]
  | .toupper, [x], _, h => simp [writeCall, (h x (by simp)).value]
  | .strlen, [x], _, h => simp [writeCall, (h x (by simp)).value]
  | .todouble, [x], _, h => exact onlyNames_writeToNumber (h x (by simp))
  | .toreal, [x], _, h => exact onlyNames_writeToNumber (h x (by simp))
  | .toint, [x], _, h => simp [writeCall, onlyNames_writeToNumber (h x (by simp))]
  | .tolong, [x], _, h => simp [writeCall, onlyNames_writeToNumber (h x (by simp))]
  | .bin, [x, size], _, h => exact hbinned x size (h x (by simp)) (h size (by simp))
  | .floor, [x, size], _, h => exact hbinned x size (h x (by simp)) (h size (by simp))
  | .extract, [regex, group, x], hcall, h =>
    obtain ⟨regex, wregex⟩ := regex
    obtain ⟨group, wgroup⟩ := group
    obtain ⟨⟨pattern, rfl, hpattern⟩, ⟨n, rfl, -⟩, -⟩ := hcall
    exact onlyNames_writeExtract hpattern (h x (by simp)).value
  | .substring, [x, start], _, h =>
    simp only [writeCall]
    exact onlyNames_writeSubstring (h x (by simp)).value (h start (by simp)).value (by simp)
  | .substring, [x, start, length], _, h =>
    simp only [writeCall]
    refine onlyNames_writeSubstring (h x (by simp)).value (h start (by simp)).value ?_
    simpa using (h length (by simp)).value
  | .round, [x], _, h =>
    simp only [writeCall]
    exact onlyNames_writeRound (h x (by simp)).value (by simp)
  | .round, [x, precision], _, h =>
    simp only [writeCall]
    refine onlyNames_writeRound (h x (by simp)).value ?_
    simpa using (h precision (by simp)).value
  | .arrayLength, [x], hcall, h => simp [writeCall, jsonIs, (h x (by simp)).jsonText hcall]

end Written

section Exprs

variable (f : Fields) (P : Option String → Prop)

mutual

/-- The columns that the Fields and columns an expression reads are kept in meet a condition. -/
def Expr.ReadsIn : Expr → Prop
  | .fieldRef name builtIn _ =>
    if builtIn then (f.builtIn name).OnlyNames P
    else (∀ t, (f.attributeOf t name).OnlyNames P) ∧ ∀ column ∈ f.stringColumn name, column.OnlyNames P
  | .attributeText name => ∀ t, (f.attributeOf t name).OnlyNames P
  | .jsonValueText x => x.ReadsIn
  | .columnRef name _ _ => (f.column name).OnlyNames P
  | .partOf x _ => x.ReadsIn
  | .literal _ => True
  | .compare x _ y => x.ReadsIn ∧ y.ReadsIn
  | .textMatch _ x _ _ => x.ReadsIn
  | .isEmpty x => x.ReadsIn
  | .always => True
  | .and x y => x.ReadsIn ∧ y.ReadsIn
  | .or x y => x.ReadsIn ∧ y.ReadsIn
  | .not x => x.ReadsIn
  | .arith _ x y _ => x.ReadsIn ∧ y.ReadsIn
  | .negative x => x.ReadsIn
  | .call _ args _ => allReadIn args
  | .parsedJSON x => x.ReadsIn
  | .member x _ => x.ReadsIn
  | .aggregate .rate _ _ _ => (f.column binSecondsColumn).OnlyNames P
  | .aggregate .peakRate _ _ _ => (f.column secondCountColumn).OnlyNames P
  | .aggregate _ (some x) _ _ => x.ReadsIn
  | .aggregate _ none _ _ => True

def allReadIn : List Expr → Prop
  | [] => True
  | x :: rest => x.ReadsIn ∧ allReadIn rest

end

variable {f P} {lib : Library} {scope : Scope} {agg : Option RateBasis}

/-- Each of some expressions reads only what is allowed. -/
theorem allReadIn_iff (xs : List Expr) : allReadIn f P xs ↔ ∀ x ∈ xs, x.ReadsIn f P := by
  induction xs with
  | nil => simp [allReadIn]
  | cons x rest ih => simp [allReadIn, ih]

/-- Arguments are written one by one. -/
theorem writeAll_eq_map (xs : List Expr) : writeAll lib f xs = xs.map (write lib f) := by
  induction xs with
  | nil => rfl
  | cons x rest ih => simp [writeAll, ih]

/-- A field is written with the names it reads. -/
theorem onlyNames_writeFieldRef {name : String} {builtIn : Bool} {t : ValueType}
    (hbuiltIn : builtIn = true → t ≠ .dynamic)
    (hreads : (Expr.fieldRef name builtIn t).ReadsIn f P) :
    (writeFieldRef f name builtIn t).OnlyNames P t := by
  unfold writeFieldRef
  simp only
  cases builtIn with
  | true =>
    have hvalue : (f.builtIn name).OnlyNames P := by simpa [Expr.ReadsIn] using hreads
    exact ⟨hvalue, fun ht => absurd ht (hbuiltIn rfl), fun ht => absurd ht (hbuiltIn rfl),
      fun ht _ => onlyNames_valueCondition ht hvalue⟩
  | false =>
    have hparts : ∀ t, (f.attributeOf t name).OnlyNames P := by
      simp only [Expr.ReadsIn, Bool.false_eq_true, if_false] at hreads
      exact hreads.1
    have hvalue : (writeFieldRef f name false t).value.OnlyNames P := by
      simp only [writeFieldRef, Bool.false_eq_true, if_false]
      split
      · exact hparts _
      · exact onlyNames_dynamicOf hparts
    exact ⟨hvalue, fun _ => hparts, fun _ => hparts _,
      fun ht _ => onlyNames_valueCondition ht hvalue⟩

/-- A comparison with a string column names the column and the value. -/
theorem onlyNames_stringColumnCompare {x y : Expr} {column value : Sql} (hx : x.ReadsIn f P)
    (hy : y.ReadsIn f P) (h : stringColumnCompare f x y = some (column, value)) :
    column.OnlyNames P ∧ value.OnlyNames P := by
  unfold stringColumnCompare at h
  simp only at h
  split at h
  next name s hsides =>
    split at h
    · cases h
    · simp only [Option.map_eq_some_iff, Prod.mk.injEq] at h
      obtain ⟨column, hcolumn, rfl, rfl⟩ := h
      have hreads : (Expr.fieldRef name false .string).ReadsIn f P := by
        split at hsides <;> cases hsides
        · exact hy
        · exact hx
      simp only [Expr.ReadsIn, Bool.false_eq_true, if_false] at hreads
      exact ⟨hreads.2 column hcolumn, trivial⟩
  · cases h

/-- A comparison names what its sides name. -/
theorem onlyNames_writeCompare {x y : Expr} {op : CompareOp} {wx wy : Written} {negate : Bool}
    (hx : wx.value.OnlyNames P) (hy : wy.value.OnlyNames P) (hreadsX : x.ReadsIn f P)
    (hreadsY : y.ReadsIn f P) : (writeCompare f x op y wx wy negate).OnlyNames P := by
  unfold writeCompare
  split
  · trivial
  · split
    next column value _ hcolumn =>
      have hnames := onlyNames_stringColumnCompare hreadsX hreadsY hcolumn
      split <;> simp [hnames.1, hnames.2]
    · split <;> simp [hx, hy]
    · simp [hx, hy]

/-- An aggregate names what its argument names. -/
theorem onlyNames_writeAggregate {fn : AggregateFunction} {x : Expr} {w : Written} {percent : ℚ}
    {t : ValueType} (hchecked : AggregateChecked fn x.typ t) (hw : w.OnlyNames P x.typ) :
    (writeAggregate f fn (some (x.typ, w)) percent).OnlyNames P := by
  cases fn
  case rate => cases hchecked
  case peakRate => cases hchecked
  case dcount =>
    simp only [writeAggregate]
    split <;> simp [hw.value]
  all_goals simp [writeAggregate, hw.value]

/-- What is written of a checked expression names only the columns of what the expression reads. -/
theorem Checked.onlyNames {x : Expr} (h : Checked lib scope agg x) (hreads : x.ReadsIn f P) :
    (write lib f x).OnlyNames P x.typ := by
  induction h with
  | @builtIn _ name t _ _ ht =>
    refine onlyNames_writeFieldRef (fun _ hdynamic => ?_) hreads
    subst hdynamic
    unfold builtInFields at ht
    split at ht <;> cases ht
  | attr => exact onlyNames_writeFieldRef nofun hreads
  | attributeText => exact Written.onlyNames_ofValue (onlyNames_writeText hreads)
  | jsonValueText _ hjson ih =>
    exact Written.onlyNames_ofValue (onlyNames_writeText ((ih hreads).partsOf (typ_of_isJSONValue hjson)))
  | columnRef => exact Written.onlyNames_ofValue hreads
  | @partOf _ x t _ hdynamic ht ih =>
    refine Written.onlyNames_ofValue ?_
    unfold typedPart
    cases hpart : t.attributeType with
    | none => simp [hpart] at ht
    | some a => exact (ih hreads).partsOf hdynamic a
  | @literal _ l => exact Written.onlyNames_ofValue (by cases l <;> simp [writeLiteral])
  | compare _ _ _ _ ihx ihy =>
    refine Written.onlyNames_ofTest fun negate => ?_
    exact onlyNames_writeCompare (ihx hreads.1).value (ihy hreads.2).value hreads.1 hreads.2
  | textMatch _ _ _ ih =>
    refine Written.onlyNames_ofTest fun negate => onlyNames_testOf.2 ?_
    exact onlyNames_writeTextMatch (ih hreads).value
  | isEmpty _ ih =>
    exact Written.onlyNames_ofTest fun negate => onlyNames_isEmptyCondition (ih hreads)
  | and _ _ htx hty ihx ihy =>
    refine Written.onlyNames_ofTest fun negate => ?_
    exact ⟨(ihx hreads.1).condition htx negate, (ihy hreads.2).condition hty negate, trivial⟩
  | or _ _ htx hty ihx ihy =>
    refine Written.onlyNames_ofTest fun negate => ?_
    exact ⟨(ihx hreads.1).condition htx negate, (ihy hreads.2).condition hty negate, trivial⟩
  | not _ htx ih =>
    exact Written.onlyNames_ofTest fun negate => (ih hreads).condition htx _
  | arith _ _ _ ihx ihy =>
    exact Written.onlyNames_ofValue ⟨(ihx hreads.1).value, (ihy hreads.2).value, trivial⟩
  | negative _ _ ih => exact Written.onlyNames_ofValue ⟨(ih hreads).value, trivial⟩
  | @call _ fn args t _ hcall _ ih =>
    have hreads : ∀ x ∈ args, x.ReadsIn f P := (allReadIn_iff args).1 hreads
    have hzip : args.zip (writeAll lib f args) = args.map fun x => (x, write lib f x) := by
      rw [writeAll_eq_map, List.zip_eq_zipWith, List.zipWith_map_right, List.zipWith_self]
    have hfst : (args.map fun x => (x, write lib f x)).map Prod.fst = args := by
      rw [List.map_map]
      exact List.map_id args
    refine Written.onlyNames_ofValue ?_
    rw [hzip]
    refine onlyNames_writeCall (by rw [hfst]; exact hcall) fun arg harg => ?_
    obtain ⟨x, hx, rfl⟩ := List.mem_map.1 harg
    exact ih x hx (hreads x hx)
  | parsedJSON _ _ ih =>
    have hx := (ih hreads).value
    exact Written.onlyNames_ofParts (fun _ => onlyNames_parsedParts hx) hx
  | @member _ x path _ ht ih =>
    have hjson := @onlyNames_writeMember P _ path ((ih hreads).jsonText ht)
    exact Written.onlyNames_ofParts (fun _ => onlyNames_jsonParts hjson hjson) hjson
  | count => exact Written.onlyNames_ofValue trivial
  | rate => exact Written.onlyNames_ofValue (by simpa [writeAggregate, Expr.ReadsIn] using hreads)
  | peakRate => exact Written.onlyNames_ofValue (by simpa [writeAggregate, Expr.ReadsIn] using hreads)
  | @aggregateOf _ fn x _ _ _ ht ih =>
    refine Written.onlyNames_ofValue (onlyNames_writeAggregate ht (ih ?_))
    cases fn <;> first | exact hreads | cases ht

end Exprs

end SolidTrace.LogQuery
