import SolidTrace.LogQuery.TwoValued
import SolidTrace.OldLogs.OldDay

/-!
# A Log's Fields wherever it is stored

Each Field of a Log is the same in the row of the logs table and in any row of an old Log file that the Log
may lie in, so an old row read whole is the Log, and the wheres of a Query's head keep both or neither.
-/

namespace SolidTrace.OldLogs

open LogQuery

section Maps

variable {V W : Type}

/-- A map's entries look up as the map does. -/
theorem lookup_entriesOf (f : V → W) (m : NamedMap V) (key : String) :
    (entriesOf f m).lookup key = (m.lookup key).map f := by
  unfold entriesOf AList.lookup
  induction m.entries with
  | nil => rfl
  | cons entry rest ih =>
    obtain ⟨name, v⟩ := entry
    by_cases hname : name = key
    · subst hname
      simp
    · have hne : (key == name) = false := by simpa using Ne.symm hname
      rw [List.map_cons, List.lookup_cons, hne, ih, List.dlookup_cons_ne _ _ (Ne.symm hname)]

variable {ch : ClickHouse} {row : Sql.Row}

/-- An attribute of a map of JSON is the map's entry. -/
theorem eval_jsonAttribute {m : Sql} {entries : List (String × String)}
    (h : m.eval ch [] row = some (.map entries)) (key : String) :
    (jsonAttribute m key).eval ch [] row = (entries.lookup key).map .string := by
  simp only [jsonAttribute, Sql.eval, Sql.evalAll, Sql.text, h, Fn.eval]
  cases entries.lookup key <;> simp [truth]

/-- ClickHouse's functions that old Logs are read with mean what they are documented to. -/
structure ReadsMaps (ch : ClickHouse) : Prop where
  contains : ∀ entries key, ch.apply .mapContains [some (.attributes entries), some (.string key)] =
    some (.bool (entries.lookup key).isSome)
  element : ∀ entries key, ch.apply .mapElement [some (.attributes entries), some (.string key)] =
    (entries.lookup key).map attributeValue

/-- A typed map has the value of its entry. -/
theorem eval_typedMap (hch : ReadsMaps ch) {m : Sql} {entries : List (String × AttributeValue)}
    (h : m.eval ch [] row = some (.attributes entries)) (key : String) :
    (jsonAttribute m key).eval ch [] row = (entries.lookup key).map attributeValue := by
  simp only [jsonAttribute, Sql.eval, Sql.evalAll, Sql.text, h, Fn.eval, ordinary, Fn.readsNull, Bool.not_false,
    List.any_cons, List.any_nil, Option.isNone_some, Bool.or_self, Bool.and_false, Bool.false_eq_true, if_false,
    hch.contains, hch.element]
  cases entries.lookup key <;> simp [truth]

end Maps

section Attributes

variable {ch : ClickHouse} {d : OldDay} {log : Log} {row : OldRow}

/-- The logs table has each Attribute as its type. -/
theorem attributeOf_logRow (projectID batch : ℕ) (log : Log) (t : AttributeType) (key : String) :
    ((clickHouseColumns none).attributeOf t key).eval ch [] (logRow projectID batch log) =
      log.attributes.valueOf t key := by
  cases t with
  | json =>
    have hjson : (Sql.column none "attrs_json").eval ch [] (logRow projectID batch log) =
        some (.map (entriesOf id log.attributes.json)) := rfl
    simp only [clickHouseColumns, if_true, eval_jsonAttribute hjson, lookup_entriesOf, Option.map_id]
    rfl
  | _ =>
    obtain ⟨hstring, hnumber⟩ := log.apart key
    simp only [← AList.lookup_isSome] at hstring hnumber
    simp only [clickHouseColumns, reduceCtorEq, if_false, Sql.eval, Sql.evalAll, Sql.text, logRow, Fn.eval,
      subcolumnOf, List.lookup_append, lookup_entriesOf, Attributes.valueOf]
    cases hs : log.attributes.string.lookup key <;> cases hn : log.attributes.number.lookup key <;>
      cases hb : log.attributes.bool.lookup key <;> simp_all

/-- A promoted column has the value promoted to it. -/
theorem columns_promoted {name : String} (h : name ∉ fixedColumns) :
    row.columns name = (row.promoted name).map attributeValue := by
  unfold OldRow.columns
  split <;> first | rfl | exact absurd (by simp [fixedColumns]) h

/-- A Log's values of a type are read from a row that they lie in. -/
theorem Places.eval {V : Type} {t : AttributeType} {value : V → AttributeValue} {values inMap : NamedMap V}
    (h : Places d row t value values inMap) (ht : t ≠ .json)
    (hmap : ∀ key, (jsonAttribute (mapColumn t) key).eval ch [] row.columns =
      (inMap.lookup key).map fun v => attributeValue (value v)) (key : String) :
    (d.attributeOf t key).eval ch [] row.columns = (values.lookup key).map fun v => attributeValue (value v) := by
  unfold OldDay.attributeOf
  rw [if_neg ht]
  simp only
  split
  next p hfind =>
    have hmem := List.mem_of_find?_eq_some hfind
    have hfound := List.find?_some hfind
    simp only [decide_eq_true_eq] at hfound
    obtain ⟨htype, rfl⟩ := hfound
    have hp : p ∈ d.promotedOf t := List.mem_filter.2 ⟨hmem, by simpa using htype⟩
    have hcolumn : (Sql.column none p.column).eval ch [] row.columns =
        (row.promoted p.column).map attributeValue := columns_promoted (d.apart p hmem)
    have hcoalesce : ∀ x y : Sql, (Sql.fn .coalesce [x, y]).eval ch [] row.columns =
        (x.eval ch [] row.columns).or (y.eval ch [] row.columns) := by
      intro x y
      simp only [Sql.eval, Sql.evalAll, Fn.eval]
      cases x.eval ch [] row.columns <;> cases y.eval ch [] row.columns <;> rfl
    cases hpartway : p.partway with
    | false =>
      rw [if_neg (by simp), hcolumn, (h.whole p hp hpartway).1, Option.map_map]
      rfl
    | true =>
      rw [if_pos rfl, hcoalesce, hcolumn, hmap]
      rcases h.partway p hp hpartway with ⟨hvalue, hinMap⟩ | ⟨hnone, hinMap⟩
      · rw [hvalue]
        rcases hinMap with hinMap | hinMap <;> rw [hinMap] <;> cases values.lookup p.key <;> rfl
      · rw [hnone, hinMap]
        rfl
  next hfind =>
    rw [hmap, h.others key]
    intro p hp hkey
    obtain ⟨hmem, htype⟩ := List.mem_filter.1 hp
    have hnone := List.find?_eq_none.1 hfind p hmem
    simp only [decide_eq_true_eq] at htype hnone
    exact hnone ⟨htype, hkey⟩

/-- A day's old files have each Attribute as its type. -/
theorem attributeOf_oldRow (hch : ReadsMaps ch) (h : LiesIn d log row) (t : AttributeType) (key : String) :
    (d.attributeOf t key).eval ch [] row.columns = log.attributes.valueOf t key := by
  cases t with
  | json =>
    have hjson : (Sql.column none "attrs_json").eval ch [] row.columns = some (.map (entriesOf id row.json)) := rfl
    rw [OldDay.attributeOf, if_pos rfl, eval_jsonAttribute hjson, lookup_entriesOf, Option.map_id, h.json]
    rfl
  | string =>
    have hmap : (mapColumn .string).eval ch [] row.columns = some (.map (entriesOf id row.string)) := rfl
    refine h.string.eval (by decide) (fun key => ?_) key
    rw [eval_jsonAttribute hmap, lookup_entriesOf, Option.map_id]
    rfl
  | number =>
    have hmap : (mapColumn .number).eval ch [] row.columns =
        some (.attributes (entriesOf .number row.number)) := rfl
    refine h.number.eval (by decide) (fun key => ?_) key
    rw [eval_typedMap hch hmap, lookup_entriesOf, Option.map_map]
    rfl
  | bool =>
    have hmap : (mapColumn .bool).eval ch [] row.columns = some (.attributes (entriesOf .bool row.bool)) := rfl
    refine h.bool.eval (by decide) (fun key => ?_) key
    rw [eval_typedMap hch hmap, lookup_entriesOf, Option.map_map]
    rfl

/-- A text that is missing reads as empty. -/
theorem eval_ifNullEmpty {x : Sql} {r : Sql.Row} {s : Option String}
    (h : x.eval ch [] r = s.map .string) : (ifNullEmpty x).eval ch [] r = some (.string (s.getD "")) := by
  simp only [ifNullEmpty, Sql.eval, Sql.evalAll, Sql.text, Fn.eval, h]
  cases s <;> rfl

/-- The built-in fields are alike. -/
theorem builtIn_oldRow (h : LiesIn d log row) (projectID batch : ℕ) {name : String} {t : ValueType}
    (ht : builtInFields name = some t) : (d.columns.builtIn name).eval ch [] row.columns =
      ((clickHouseColumns none).builtIn name).eval ch [] (logRow projectID batch log) := by
  have hmessage : (ifNullEmpty (.column none "message")).eval ch [] row.columns = some (.string log.message) := by
    rw [eval_ifNullEmpty (s := row.message) rfl, h.message]
  have hservice : (ifNullEmpty (.column none "service")).eval ch [] row.columns = some (.string log.service) := by
    rw [eval_ifNullEmpty (s := row.service) rfl, h.service]
  unfold builtInFields at ht
  split at ht
  · exact congrArg (fun time => some (Value.time time)) h.time
  · exact congrArg (Option.map Value.string) h.level
  · exact hmessage
  · exact hservice
  · exact congrArg (Option.map Value.string) h.environment
  · exact congrArg (Option.map Value.string) h.traceID
  · exact congrArg (Option.map Value.string) h.spanID
  · cases ht

end Attributes

section Scan

variable {V : Type}

/-- A promoted value is put back under its key. -/
theorem lookup_setPromoted (m : NamedMap V) (wanted : NamedMap V) (promoted : List PromotedKey)
    (value : PromotedKey → Option V) (h : ∀ p ∈ promoted, ∀ v, value p = some v → wanted.lookup p.key = some v)
    (key : String) :
    (setPromoted m (promoted.map PromotedKey.key) (promoted.map value)).lookup key = wanted.lookup key ∨
      ((setPromoted m (promoted.map PromotedKey.key) (promoted.map value)).lookup key = m.lookup key ∧
        ∀ p ∈ promoted, p.key = key → value p = none) := by
  induction promoted generalizing m with
  | nil => exact .inr ⟨rfl, by simp⟩
  | cons p rest ih =>
    obtain ⟨hp, hrest⟩ := List.forall_mem_cons.1 h
    simp only [List.map_cons, setPromoted]
    cases hvalue : value p with
    | none =>
      refine (ih m hrest).imp id fun hrest => ⟨hrest.1, ?_⟩
      exact List.forall_mem_cons.2 ⟨fun _ => hvalue, hrest.2⟩
    | some v =>
      rcases ih (m.insert p.key v) hrest with hwanted | ⟨hlookup, hnone⟩
      · exact .inl hwanted
      · by_cases hkey : p.key = key
        · subst hkey
          exact .inl (by rw [hlookup, AList.lookup_insert, hp v hvalue])
        · refine .inr ⟨by rw [hlookup, AList.lookup_insert_ne (Ne.symm hkey)], ?_⟩
          exact List.forall_mem_cons.2 ⟨fun h => absurd h hkey, hnone⟩

/-- A map that is read whole, its promoted keys set, is the Log's. -/
theorem Places.lookup_setPromoted {d : OldDay} {row : OldRow} {t : AttributeType} {value : V → AttributeValue}
    {values inMap : NamedMap V} (h : Places d row t value values inMap) {read : AttributeValue → Option V}
    (hread : ∀ v, read (value v) = some v) (key : String) :
    (setPromoted inMap ((d.promotedOf t).map PromotedKey.key) (promotedValues read row (d.promotedOf t))).lookup
      key = values.lookup key := by
  have hbind : ∀ o : Option V, (o.map value).bind read = o := by
    intro o
    cases o with
    | none => rfl
    | some v => exact hread v
  have hvalues : ∀ p ∈ d.promotedOf t, ∀ v, (row.promoted p.column).bind read = some v →
      values.lookup p.key = some v := by
    intro p hp v hv
    cases hpartway : p.partway with
    | false => rwa [(h.whole p hp hpartway).1, hbind] at hv
    | true =>
      rcases h.partway p hp hpartway with ⟨hcolumn, -⟩ | ⟨hcolumn, -⟩
      · rwa [hcolumn, hbind] at hv
      · rw [hcolumn] at hv
        cases hv
  rcases OldLogs.lookup_setPromoted inMap values (d.promotedOf t) _ hvalues key with hset | ⟨hset, hnone⟩
  · exact hset
  · refine hset.trans ?_
    by_cases hkey : ∃ p ∈ d.promotedOf t, p.key = key
    · obtain ⟨p, hp, rfl⟩ := hkey
      have hcolumn := hnone p hp rfl
      cases hpartway : p.partway with
      | false =>
        obtain ⟨hvalue, hmap⟩ := h.whole p hp hpartway
        rw [hvalue, hbind] at hcolumn
        rw [hmap, hcolumn]
      | true =>
        rcases h.partway p hp hpartway with ⟨hvalue, hmap⟩ | ⟨-, hmap⟩
        · rw [hvalue, hbind] at hcolumn
          rcases hmap with hmap | hmap
          · rw [hmap, hcolumn]
          · exact hmap
        · exact hmap
    · exact h.others key fun p hp heq => hkey ⟨p, hp, heq⟩

/-- Two Logs are the same: each map has the same values. -/
structure LogData.Same (a b : LogData) : Prop where
  id : a.id = b.id
  time : a.time = b.time
  level : a.level = b.level
  message : a.message = b.message
  service : a.service = b.service
  environment : a.environment = b.environment
  traceID : a.traceID = b.traceID
  spanID : a.spanID = b.spanID
  string : ∀ key, a.attributes.string.lookup key = b.attributes.string.lookup key
  number : ∀ key, a.attributes.number.lookup key = b.attributes.number.lookup key
  bool : ∀ key, a.attributes.bool.lookup key = b.attributes.bool.lookup key
  json : ∀ key, a.attributes.json.lookup key = b.attributes.json.lookup key

/-- An empty text that was left out reads as empty. -/
theorem getD_nullIfEmptyString (s : String) : (nullIfEmptyString s).getD "" = s := by
  unfold nullIfEmptyString
  split
  next h => exact h.symm
  next => rfl

/-- A row of an old Log file read whole is the Log that lies in it. -/
theorem scanOldLog_same {d : OldDay} {log : Log} {row : OldRow} (h : LiesIn d log row) :
    (scanOldLog (d.logColumns row)).Same log.toLogData where
  id := h.id
  time := h.time
  level := by
    change row.level.getD "" = log.level
    rw [h.level, getD_nullIfEmptyString]
  message := h.message
  service := h.service
  environment := by
    change row.environment.getD "" = log.environment
    rw [h.environment, getD_nullIfEmptyString]
  traceID := by
    change row.traceID.getD "" = log.traceID
    rw [h.traceID, getD_nullIfEmptyString]
  spanID := by
    change row.spanID.getD "" = log.spanID
    rw [h.spanID, getD_nullIfEmptyString]
  string := h.string.lookup_setPromoted fun _ => rfl
  number := h.number.lookup_setPromoted fun _ => rfl
  bool := h.bool.lookup_setPromoted fun _ => rfl
  json := h.json

end Scan

section Heads

/-- Two rows have the same Fields. -/
structure SameFields (a b : FieldValues) : Prop where
  builtIn : ∀ name t, builtInFields name = some t → a.builtIn name = b.builtIn name
  attributeOf : ∀ t key, a.attributeOf t key = b.attributeOf t key

variable {ch : ClickHouse} {lib : Library} {both : BothMissing} {a b : FieldValues}

/-- Arguments read the same of two rows where each does. -/
theorem readAll_congr {args : List Expr}
    (h : ∀ x ∈ args, readExpr ch lib both a x = readExpr ch lib both b x) :
    readAll ch lib both a args = readAll ch lib both b args := by
  induction args with
  | nil => rfl
  | cons x rest ih =>
    obtain ⟨hx, hrest⟩ := List.forall_mem_cons.1 h
    rw [readAll, readAll, hx, ih hrest]

/-- What is named among Logs is read alike of rows of the same Fields. -/
theorem readExpr_congr {x : Expr} (h : Checked lib .logScope none x) (hab : SameFields a b) :
    readExpr ch lib both a x = readExpr ch lib both b x := by
  have hattribute : a.attributeOf = b.attributeOf := funext fun t => funext fun key => hab.attributeOf t key
  generalize hnone : (none : Option RateBasis) = agg at h
  induction h with
  | builtIn _ _ ht => simp only [readExpr, if_true, hab.builtIn _ _ ht, hattribute]
  | attr => simp only [readExpr, hattribute, Bool.false_eq_true, if_false]
  | attributeText => simp only [readExpr, hattribute]
  | columnRef hcol => cases hcol
  | literal => rfl
  | jsonValueText _ _ ih | partOf _ _ _ ih | textMatch _ _ _ ih | isEmpty _ ih | not _ _ ih
  | negative _ _ ih | parsedJSON _ _ ih | member _ _ ih => simp only [readExpr, ih hnone]
  | compare _ _ _ _ ihx ihy | and _ _ _ _ ihx ihy | or _ _ _ _ ihx ihy | arith _ _ _ ihx ihy =>
    simp only [readExpr, ihx hnone, ihy hnone]
  | call _ _ _ ih => simp only [readExpr, readAll_congr fun x hx => ih x hx hnone]
  | count => cases hnone
  | rate => cases hnone
  | peakRate => cases hnone
  | aggregateOf => cases hnone

/-- Arguments that read no bool read none together. -/
theorem boolColumnsOf_eq_nil {args : List Expr} (h : ∀ x ∈ args, x.boolColumns = []) : boolColumnsOf args = [] := by
  induction args with
  | nil => rfl
  | cons x rest ih =>
    obtain ⟨hx, hrest⟩ := List.forall_mem_cons.1 h
    rw [boolColumnsOf, hx, ih hrest, List.nil_append]

/-- Among Logs no column is read. -/
theorem boolColumns_eq_nil {x : Expr} (h : Checked lib .logScope none x) : x.boolColumns = [] := by
  generalize hnone : (none : Option RateBasis) = agg at h
  induction h with
  | builtIn | attr | attributeText | literal => rfl
  | columnRef hcol => cases hcol
  | jsonValueText _ _ ih | partOf _ _ _ ih | textMatch _ _ _ ih | isEmpty _ ih | not _ _ ih
  | negative _ _ ih | parsedJSON _ _ ih | member _ _ ih => exact ih hnone
  | compare _ _ _ _ ihx ihy | and _ _ _ _ ihx ihy | or _ _ _ _ ihx ihy | arith _ _ _ ihx ihy =>
    rw [Expr.boolColumns, ihx hnone, ihy hnone, List.nil_append]
  | call _ _ _ ih => exact boolColumnsOf_eq_nil fun x hx => ih x hx hnone
  | count => cases hnone
  | rate => cases hnone
  | peakRate => cases hnone
  | aggregateOf => cases hnone

/-- A condition of a head holds of both of two rows of the same Fields, or of neither. -/
theorem holds_congr {p : Expr} (hp : Checked lib .logScope none p) (htype : p.typ = .bool)
    (hch : ch.TestsAreBools) {f f' : Fields} {row row' : Sql.Row} (hsame : SameFields (f'.values ch [] row')
      (f.values ch [] row)) (hcolumns : ColumnsAgree ch [] row f) (hcolumns' : ColumnsAgree ch [] row' f')
    (hbool : ∀ name, IsBool ((f.attributeOf .bool name).eval ch [] row)) :
    (writeCondition lib f' p false).holds ch [] row' ↔ (writeCondition lib f p false).holds ch [] row := by
  have hnil := boolColumns_eq_nil hp
  have hbool' : ∀ name, IsBool ((f'.attributeOf .bool name).eval ch [] row') := by
    intro name
    have heq := hsame.attributeOf .bool name
    simp only [Fields.values] at heq
    rw [heq]
    exact hbool name
  have hdecides : Decides ch [] row (write lib f p) (readExpr ch lib undecided (f.values ch [] row) p) :=
    (write_reads hch hcolumns p hp.ofRow ⟨hbool, by simp [hnil]⟩).2 htype
  have hdecides' : Decides ch [] row' (write lib f' p) (readExpr ch lib undecided (f'.values ch [] row') p) :=
    (write_reads hch hcolumns' p hp.ofRow ⟨hbool', by simp [hnil]⟩).2 htype
  rw [readExpr_congr hp hsame] at hdecides'
  exact hdecides'.holds.trans hdecides.holds.symm

variable {d : OldDay} {log : Log} {row : OldRow}

/-- An old file's row has the fields of the table's. -/
theorem sameFields_oldRow (hch : ReadsMaps ch) (h : LiesIn d log row) (projectID batch : ℕ) :
    SameFields (d.columns.toFields.values ch [] row.columns)
      ((clickHouseColumns none).toFields.values ch [] (logRow projectID batch log)) where
  builtIn _ _ ht := builtIn_oldRow h projectID batch ht
  attributeOf t key := (attributeOf_oldRow hch h t key).trans (attributeOf_logRow projectID batch log t key).symm

/-- The column of file has the Attribute's string. -/
theorem columnsAgree_logRow (projectID batch : ℕ) (log : Log) :
    ColumnsAgree ch [] (logRow projectID batch log) (clickHouseColumns none).toFields := by
  intro name column hcolumn
  rw [attributeOf_logRow]
  simp only [clickHouseColumns] at hcolumn
  split at hcolumn
  next hfile =>
    obtain rfl : name = "file" := eq_of_beq hfile
    cases hcolumn
    simp only [Sql.eval, logRow, Attributes.valueOf]
    cases log.attributes.string.lookup "file" <;> rfl
  next => cases hcolumn

/-- No column of an old file has an Attribute's string. -/
theorem columnsAgree_oldRow : ColumnsAgree ch [] row.columns d.columns.toFields := by
  intro name column hcolumn
  cases hcolumn

/-- A bool of the table's row is one. -/
theorem isBool_logRow (projectID batch : ℕ) (log : Log) (name : String) :
    IsBool (((clickHouseColumns none).attributeOf .bool name).eval ch [] (logRow projectID batch log)) := by
  rw [attributeOf_logRow]
  simp only [Attributes.valueOf]
  cases log.attributes.bool.lookup name with
  | none => exact isBool_none
  | some b => exact isBool_bool

/-- A where of a head keeps both rows of a Log or neither. -/
theorem where_oldRow (hch : ReadsMaps ch) (htests : ch.TestsAreBools) (h : LiesIn d log row)
    (projectID batch : ℕ) {p : Expr} (hp : Checked lib .logScope none p) (htype : p.typ = .bool) :
    (writeCondition lib d.columns.toFields p false).holds ch [] row.columns ↔
      (writeCondition lib (clickHouseColumns none).toFields p false).holds ch [] (logRow projectID batch log) :=
  holds_congr hp htype htests (sameFields_oldRow hch h projectID batch) (columnsAgree_logRow projectID batch log)
    columnsAgree_oldRow (isBool_logRow projectID batch log)

end Heads

end SolidTrace.OldLogs
