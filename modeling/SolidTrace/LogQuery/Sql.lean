import Mathlib.Algebra.Order.Ring.Cast
import Mathlib.Algebra.Order.Ring.Rat
import Mathlib.Data.String.Basic
import Mathlib.Data.List.Lex
import Mathlib.Data.Prod.Lex
import Mathlib.Data.Sum.Order
import Mathlib.Order.WithBot
import SolidTrace.Lib.Kleene
import SolidTrace.LogQuery.Expr

/-!
# SQL expressions

The expressions of ClickHouse's SQL that a Query is written as, and what they evaluate to for a row
under SQL's three-valued logic. Times and intervals are in microseconds. ClickHouse's functions on
text, JSON and numbers, and its estimates, are a parameter.
-/

namespace SolidTrace.LogQuery

section Values

/-- A value of a Log's Attribute in `attributes`. -/
inductive AttributeValue where
  | string (s : String)
  | number (n : ℚ)
  | bool (b : Bool)
deriving DecidableEq

/-- A value of ClickHouse's that is not NULL. A dynamic value is a tuple of a part for each type. -/
inductive Value where
  | bool (b : Bool)
  | number (n : ℚ)
  | string (s : String)
  | time (micros : ℤ)
  | interval (micros : ℤ)
  | uuid (id : ℕ)
  | dynamic (string : Option String) (number : Option ℚ) (bool : Option Bool) (json : Option String)
  | attributes (entries : List (String × AttributeValue))
  | map (entries : List (String × String))
deriving DecidableEq

namespace Value

/-- A part of a value in the order of its kind: by size, or by its text's bytes. -/
abbrev Atom := WithTop (ℚ ×ₗ String)

def numberAtom (n : ℚ) : Atom := WithTop.some (toLex (n, ""))

def textAtom (s : String) : Atom := WithTop.some (toLex (0, s))

def boolAtom (b : Bool) : Atom := numberAtom (if b then 1 else 0)

/-- A kind of value comes before or after another as a whole. -/
def kind : Value → ℕ
  | .bool _ => 0
  | .number _ => 1
  | .string _ => 2
  | .time _ => 3
  | .interval _ => 4
  | .uuid _ => 5
  | .dynamic _ _ _ _ => 6
  | .attributes _ => 7
  | .map _ => 8

def attributeAtoms : String × AttributeValue → List Atom
  | (key, .string s) => [textAtom key, numberAtom 0, textAtom s]
  | (key, .number n) => [textAtom key, numberAtom 1, numberAtom n]
  | (key, .bool b) => [textAtom key, numberAtom 2, boolAtom b]

/-- The parts that values of a kind are ordered by, a missing one last. -/
def atoms : Value → List Atom
  | .bool b => [boolAtom b]
  | .number n => [numberAtom n]
  | .string s => [textAtom s]
  | .time t => [numberAtom t]
  | .interval d => [numberAtom d]
  | .uuid id => [numberAtom id]
  | .dynamic s n b j =>
    [(s.map textAtom).getD ⊤, (n.map numberAtom).getD ⊤, (b.map boolAtom).getD ⊤,
      (j.map textAtom).getD ⊤]
  | .attributes entries => entries.flatMap attributeAtoms
  | .map entries => entries.flatMap fun e => [textAtom e.1, textAtom e.2]

def sortKey (v : Value) : ℕ ×ₗ List Atom := toLex (v.kind, v.atoms)

/-- Numbers sort by their values. -/
@[simp]
theorem numberAtom_inj {n m : ℚ} : numberAtom n = numberAtom m ↔ n = m := by
  simp [numberAtom]

/-- Texts sort by their characters. -/
@[simp]
theorem textAtom_inj {s t : String} : textAtom s = textAtom t ↔ s = t := by
  simp [textAtom]

/-- Bools sort apart. -/
@[simp]
theorem boolAtom_inj {b c : Bool} : boolAtom b = boolAtom c ↔ b = c := by
  cases b <;> cases c <;> simp [boolAtom]

/-- A missing part is the atom of no value. -/
theorem optionAtom_inj {α : Type*} {f : α → Atom} (hf : ∀ x y, f x = f y ↔ x = y)
    (htop : ∀ x, f x ≠ ⊤) {a b : Option α} : (a.map f).getD ⊤ = (b.map f).getD ⊤ ↔ a = b := by
  cases a <;> cases b <;> simp [hf, htop, (htop _).symm]

/-- The atoms of an attribute tell where it ends. -/
theorem attributeAtoms_append_inj {e e' : String × AttributeValue} {xs ys : List Atom} :
    attributeAtoms e ++ xs = attributeAtoms e' ++ ys ↔ e = e' ∧ xs = ys := by
  obtain ⟨key, v⟩ := e
  obtain ⟨key', v'⟩ := e'
  cases v <;> cases v' <;> simp [attributeAtoms, and_assoc]

/-- Attributes are known by their atoms. -/
theorem attributes_atoms_inj {xs ys : List (String × AttributeValue)}
    (h : xs.flatMap attributeAtoms = ys.flatMap attributeAtoms) : xs = ys := by
  induction xs generalizing ys with
  | nil =>
    cases ys with
    | nil => rfl
    | cons e ys =>
      obtain ⟨key, v⟩ := e
      cases v <;> simp [attributeAtoms] at h
  | cons e xs ih =>
    cases ys with
    | nil =>
      obtain ⟨key, v⟩ := e
      cases v <;> simp [attributeAtoms] at h
    | cons e' ys =>
      rw [List.flatMap_cons, List.flatMap_cons, attributeAtoms_append_inj] at h
      rw [h.1, ih h.2]

/-- A map of texts is known by its atoms. -/
theorem map_atoms_inj {xs ys : List (String × String)}
    (h : (xs.flatMap fun e => [textAtom e.1, textAtom e.2]) =
      ys.flatMap fun e => [textAtom e.1, textAtom e.2]) : xs = ys := by
  induction xs generalizing ys with
  | nil => cases ys with
    | nil => rfl
    | cons e ys => simp at h
  | cons e xs ih => cases ys with
    | nil => simp at h
    | cons e' ys =>
      simp only [List.flatMap_cons, List.cons_append, List.nil_append, List.cons.injEq,
        textAtom_inj] at h
      rw [ih h.2.2, Prod.ext h.1 h.2.1]

/-- Values are known by their sort keys. -/
theorem sortKey_injective : Function.Injective sortKey := by
  intro v w h
  have hpair : v.kind = w.kind ∧ v.atoms = w.atoms := by
    simpa [sortKey] using h
  obtain ⟨hkind, hatoms⟩ := hpair
  cases v <;> cases w <;> simp [kind] at hkind <;> simp [atoms] at hatoms
  case dynamic.dynamic =>
    simp only [optionAtom_inj (fun _ _ => textAtom_inj) fun _ => WithTop.coe_ne_top,
      optionAtom_inj (fun _ _ => numberAtom_inj) fun _ => WithTop.coe_ne_top,
      optionAtom_inj (fun _ _ => boolAtom_inj) fun _ => WithTop.coe_ne_top] at hatoms
    obtain ⟨rfl, rfl, rfl, rfl⟩ := hatoms
    rfl
  case attributes.attributes => rw [attributes_atoms_inj hatoms]
  case map.map => rw [map_atoms_inj hatoms]
  all_goals rw [hatoms]

instance : LinearOrder Value := LinearOrder.lift' sortKey sortKey_injective

/-- Values are ordered by their sort keys. -/
theorem lt_iff {v w : Value} : v < w ↔ v.sortKey < w.sortKey := Iff.rfl

/-- Numbers are ordered as numbers are. -/
theorem number_lt_number {p q : ℚ} : Value.number p < .number q ↔ p < q := by
  have hatoms : [numberAtom p] < [numberAtom q] ↔ numberAtom p < numberAtom q := List.lex_singleton_iff _ _
  rw [lt_iff]
  simp only [sortKey, kind, atoms, Prod.Lex.toLex_lt_toLex, lt_irrefl, true_and, false_or, hatoms]
  simp [numberAtom, Prod.Lex.toLex_lt_toLex]

/-- Times are ordered as times are. -/
theorem time_lt_time {s t : ℤ} : Value.time s < .time t ↔ s < t := by
  have hatoms : [numberAtom s] < [numberAtom t] ↔ numberAtom s < numberAtom t :=
    List.lex_singleton_iff _ _
  rw [lt_iff]
  simp only [sortKey, kind, atoms, Prod.Lex.toLex_lt_toLex, lt_irrefl, true_and, false_or, hatoms]
  simp [numberAtom, Prod.Lex.toLex_lt_toLex]

/-- Times are ordered, the same one included, as times are. -/
theorem time_le_time {s t : ℤ} : Value.time s ≤ .time t ↔ s ≤ t := by
  rw [← not_lt, ← not_lt, time_lt_time]

end Value

end Values

section Functions

/-- ClickHouse's functions and operators that a Query is written with. -/
inductive Fn where
  | and | or | not
  | equals | notEquals | less | lessOrEquals | greater | greaterOrEquals
  | isDistinctFrom | isNull | isNotNull | isIn
  | plus | minus | multiply | divide | modulo | negate
  | coalesce | nullIf | cond | multiIf | toBool | tuple
  /-- `tupleElement` of a dynamic value's part. -/
  | tupleElement (t : AttributeType)
  /-- The typed subcolumn of a path of `attributes`. -/
  | subcolumn (t : AttributeType)
  | mapContains | mapElement
  | toDynamic | toString | toFloat64 | toFloat64OrNull | toInt64 | toUInt128
  | trunc | floor | abs | sign | pow | least | greatest
  | lengthUTF8 | lowerUTF8 | upperUTF8 | substringUTF8 | regexpExtract
  | position | positionCaseInsensitive | positionCaseInsensitiveUTF8 | startsWith | matches
  | isValidJSON | jsonType | jsonLength
  | jsonExtractString | jsonExtractFloat | jsonExtractBool | jsonExtractRaw
  | formatDateTime | toStartOfInterval | toUnixTimestamp64Micro
  | mapValues | arrayStringConcat | concatWithSeparator
deriving DecidableEq, Repr

inductive AggregateFn where
  | count | countIf | uniq | uniqIf
  | sumOrNull | avgOrNull | minOrNull | maxOrNull
  | quantileTDigestOrNull (level : ℚ)
deriving DecidableEq, Repr

/-- Where ClickHouse finds a text in another, from 1, or 0 where it does not. -/
def positionIn (text pattern : List Char) : ℕ :=
  (((List.range (text.length + 1)).find? fun i => pattern.isPrefixOf (text.drop i)).map (· + 1)).getD 0

/-- A text is found where it is part of the other. -/
theorem positionIn_pos_iff {text pattern : List Char} : 0 < positionIn text pattern ↔ pattern <:+: text := by
  unfold positionIn
  cases hfind : (List.range (text.length + 1)).find? fun i => pattern.isPrefixOf (text.drop i) with
  | none =>
    simp only [Option.map_none, Option.getD_none, lt_irrefl, false_iff]
    rintro ⟨before, after, rfl⟩
    refine List.find?_eq_none.1 hfind before.length (List.mem_range.2 ?_) ?_
    · rw [List.length_append, List.length_append]
      omega
    · rw [List.isPrefixOf_iff_prefix, List.append_assoc, List.drop_left]
      exact List.prefix_append pattern after
  | some i =>
    simp only [Option.map_some, Option.getD_some, Nat.zero_lt_succ, true_iff]
    have hstarts : pattern.isPrefixOf (text.drop i) = true := List.find?_some (p := fun i =>
      pattern.isPrefixOf (text.drop i)) hfind
    have hprefix := List.isPrefixOf_iff_prefix.1 hstarts
    exact hprefix.isInfix.trans (List.drop_suffix i text).isInfix

/-- ClickHouse's functions that are not given here. `apply` is not asked of a NULL argument but for
least, greatest, multiIf and a cast to Dynamic. -/
structure ClickHouse where
  apply : Fn → List (Option Value) → Option Value
  aggregate : AggregateFn → List (List (Option Value)) → Option Value

/-- The truth of a condition's value: unknown where it is NULL. -/
def truth : Option Value → Option Bool
  | some (.bool b) => some b
  | _ => none

def ofTruth (t : Option Bool) : Option Value := t.map Value.bool

/-- A truth is known by its value. -/
@[simp]
theorem truth_ofTruth (t : Option Bool) : truth (ofTruth t) = t := by
  cases t <;> rfl

/-- Functions that read a NULL argument rather than give NULL for it. -/
def Fn.readsNull : Fn → Bool
  | .least | .greatest | .multiIf | .toDynamic => true
  | _ => false

/-- A tuple of the parts of a dynamic value. -/
def tupleOf : List (Option Value) → Option Value
  | [s, n, b, j] => some (.dynamic
    (match s with | some (.string s) => some s | _ => none)
    (match n with | some (.number n) => some n | _ => none)
    (match b with | some (.bool b) => some b | _ => none)
    (match j with | some (.string j) => some j | _ => none))
  | _ => none

def elementOf (t : AttributeType) : Value → Option Value
  | .dynamic s n b j =>
    match t with
    | .string => s.map Value.string
    | .number => n.map Value.number
    | .bool => b.map Value.bool
    | .json => j.map Value.string
  | _ => none

/-- The value of a key of `attributes`, if it is of the type asked for. -/
def subcolumnOf (t : AttributeType) (entries : List (String × AttributeValue)) (key : String) :
    Option Value :=
  match t, entries.lookup key with
  | .string, some (.string s) => some (.string s)
  | .number, some (.number n) => some (.number n)
  | .bool, some (.bool b) => some (.bool b)
  | _, _ => none

variable (ch : ClickHouse)

/-- An ordinary function, which gives NULL for a NULL argument. -/
def ordinary (fn : Fn) (args : List (Option Value)) : Option Value :=
  if !fn.readsNull && args.any Option.isNone then none else ch.apply fn args

/-- What a function gives for its arguments. -/
def Fn.eval (fn : Fn) (args : List (Option Value)) : Option Value :=
  match fn, args with
  | .and, [x, y] => ofTruth (Kleene.and (truth x) (truth y))
  | .or, [x, y] => ofTruth (Kleene.or (truth x) (truth y))
  | .not, [x] => ofTruth (Kleene.not (truth x))
  | .equals, [x, y] => if x.isNone || y.isNone then none else some (.bool (x = y))
  | .notEquals, [x, y] => if x.isNone || y.isNone then none else some (.bool (x ≠ y))
  | .less, [x, y] => order (· < ·) x y
  | .lessOrEquals, [x, y] => order (· ≤ ·) x y
  | .greater, [x, y] => order (· > ·) x y
  | .greaterOrEquals, [x, y] => order (· ≥ ·) x y
  | .isDistinctFrom, [x, y] => some (.bool (x ≠ y))
  | .isNull, [x] => some (.bool x.isNone)
  | .isNotNull, [x] => some (.bool x.isSome)
  | .coalesce, xs => xs.findSome? id
  | .nullIf, [x, y] => if x = y then none else x
  | .cond, [c, x, y] => if truth c = some true then x else y
  | .toBool, [x] => ofTruth (truth x)
  | .tuple, xs => tupleOf xs
  | .tupleElement t, [some v] => elementOf t v
  | .subcolumn t, [some (.attributes entries), some (.string key)] => subcolumnOf t entries key
  | .mapContains, [some (.map entries), some (.string key)] =>
    some (.bool (entries.lookup key).isSome)
  | .mapElement, [some (.map entries), some (.string key)] => (entries.lookup key).map .string
  | .plus, [some (.number x), some (.number y)] => some (.number (x + y))
  | .plus, [some (.time t), some (.interval d)] => some (.time (t + d))
  | .minus, [some (.number x), some (.number y)] => some (.number (x - y))
  | .minus, [some (.time t), some (.interval d)] => some (.time (t - d))
  | .multiply, [some (.number x), some (.number y)] => some (.number (x * y))
  | .divide, [some (.number x), some (.number y)] =>
    if y = 0 then ordinary ch .divide [some (.number x), some (.number y)]
    else some (.number (x / y))
  | .least, [some x, some y] => some (min x y)
  | .greatest, [some x, some y] => some (max x y)
  | .toStartOfInterval, [some (.time t), some (.interval d)] =>
    -- Bins of microseconds start at the epoch.
    if 0 < d then some (.time (t / d * d))
    else ordinary ch .toStartOfInterval [some (.time t), some (.interval d)]
  | .toUnixTimestamp64Micro, [some (.time t)] => some (.number t)
  | fn, args => ordinary ch fn args
where
  order (r : Value → Value → Bool) : Option Value → Option Value → Option Value
    | some x, some y => some (.bool (r x y))
    | _, _ => none

/-- The least of the values that are not NULL. -/
def leastOf (values : List (Option Value)) : Option Value := (values.filterMap id).min?

def greatestOf (values : List (Option Value)) : Option Value := (values.filterMap id).max?

/-- What an aggregate function gives for a group, each row's arguments in a list. -/
def AggregateFn.eval (fn : AggregateFn) (rows : List (List (Option Value))) : Option Value :=
  match fn with
  | .count => some (.number rows.length)
  | .countIf => some (.number (rows.countP fun args => truth args.head?.join = some true))
  | .minOrNull => leastOf (rows.map fun args => args.head?.join)
  | .maxOrNull => greatestOf (rows.map fun args => args.head?.join)
  | fn => ch.aggregate fn rows

end Functions

/-- An SQL expression. -/
inductive Sql where
  /-- A constant, or NULL. -/
  | value (v : Option Value)
  /-- A column of a relation, or of the only one where it is not named. -/
  | column (relation : Option String) (name : String)
  | fn (f : Fn) (args : List Sql)
  | aggregate (f : AggregateFn) (args : List Sql)
  /-- No SQL: writing it fails. -/
  | panic

namespace Sql

/-- A row: the value of each column by name. -/
abbrev Row := String → Option Value

variable (ch : ClickHouse)

mutual

/-- What an expression evaluates to for a row, and for the group its aggregates read. -/
def eval (group : List Row) (row : Row) : Sql → Option Value
  | .value v => v
  | .column _ name => row name
  | .fn f args => f.eval ch (evalAll group row args)
  | .aggregate f args => f.eval ch (group.map fun r => evalAll group r args)
  | .panic => none

def evalAll (group : List Row) (row : Row) : List Sql → List (Option Value)
  | [] => []
  | x :: rest => eval group row x :: evalAll group row rest

end

/-- Whether a row passes a condition: a WHERE drops what is unknown. -/
def holds (group : List Row) (row : Row) (x : Sql) : Prop := truth (x.eval ch group row) = some true

end Sql

end SolidTrace.LogQuery
