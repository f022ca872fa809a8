import SolidTrace.Normalise.Normalise

/-!
# What normalising writes

Normalising writes a list of Attributes one after another: the sender's own, out of the reserved names,
and then each value that can't fill its built-in field. The Log it builds, before its Attributes are
limited, is those writes and the values of the fields.
-/

namespace SolidTrace.Normalise

variable {D : Type}

section Values

/-- An Attribute's value, with its type. -/
inductive Value (D : Type) where
  | string (s : Bytes)
  | number (d : D)
  | bool (b : Bool)
  | json (j : Bytes)

/-- The values under a name, of any type. -/
def Attributes.values (attrs : Attributes D) (name : Bytes) : List (Value D) :=
  (attrs.string.lookup name).toList.map .string ++ (attrs.number.lookup name).toList.map .number ++
    (attrs.bool.lookup name).toList.map .bool ++ (attrs.json.lookup name).toList.map .json

/-- Set a value in the map of its type. -/
def Attributes.put (attrs : Attributes D) (name : Bytes) : Value D → Attributes D
  | .string s => { attrs with string := attrs.string.insert name s }
  | .number d => { attrs with number := attrs.number.insert name d }
  | .bool b => { attrs with bool := attrs.bool.insert name b }
  | .json j => { attrs with json := attrs.json.insert name j }

def Value.cut : Value D → Value D
  | .string s => .string (cutText s)
  | v => v

/-- Whether a limit cuts a value. -/
def Value.isLong : Value D → Bool
  | .string s => maxStringBytes < s.length
  | _ => false

/-- Deleting a name leaves the other names' values. -/
theorem values_delete (attrs : Attributes D) (name other : Bytes) :
    (deleteAttribute attrs name).values other = if other = name then [] else attrs.values other := by
  split
  next h =>
    subst h
    simp [Attributes.values, deleteAttribute]
  next h => simp [Attributes.values, deleteAttribute, AList.lookup_erase_ne h]

/-- Putting a value leaves the other names' values. -/
theorem values_put_ne (attrs : Attributes D) {name other : Bytes} (h : other ≠ name) (v : Value D) :
    (attrs.put name v).values other = attrs.values other := by
  cases v <;> simp [Attributes.values, Attributes.put, AList.lookup_insert_ne h]

/-- A value that is put under a name without one is its only value. -/
theorem values_put_self (attrs : Attributes D) {name : Bytes} (h : attrs.values name = []) (v : Value D) :
    (attrs.put name v).values name = [v] := by
  simp only [Attributes.values, List.append_eq_nil_iff, List.map_eq_nil_iff] at h
  obtain ⟨⟨⟨hstring, hnumber⟩, hbool⟩, hjson⟩ := h
  cases v <;> simp [Attributes.values, Attributes.put, hstring, hnumber, hbool, hjson]

/-- A Log without attributes has no values. -/
@[simp]
theorem values_none (name : Bytes) : (Attributes.none : Attributes D).values name = [] := by
  simp [Attributes.values, Attributes.none]

/-- A name is listed as often as it has values. -/
theorem count_names (attrs : Attributes D) (name : Bytes) :
    attrs.names.count name = (attrs.values name).length := by
  have hcount : ∀ {V : Type} (m : AList fun _ : Bytes => V), m.keys.count name = (m.lookup name).toList.length := by
    intro V m
    cases hlookup : m.lookup name with
    | none => exact List.count_eq_zero.2 (AList.lookup_eq_none.1 hlookup)
    | some v =>
      have hmem : name ∈ m := AList.lookup_isSome.1 (by rw [hlookup]; rfl)
      exact List.count_eq_one_of_mem m.keys_nodup hmem
  simp [Attributes.names, Attributes.values, hcount]

/-- A name is listed when it has a value. -/
theorem mem_names_iff (attrs : Attributes D) (name : Bytes) : name ∈ attrs.names ↔ attrs.values name ≠ [] := by
  rw [← List.count_pos_iff, count_names, List.length_pos_iff]

end Values

section Writing

variable (lib : Library D)

/-- The typed value that a JSON value is as an Attribute, before it is cut. -/
def valueOf (raw : Bytes) : Option (Value D) :=
  match raw.head? with
  | some 34 => (parseString lib raw).map .string
  | some 116 => some (.bool true)
  | some 102 => some (.bool false)
  | some 91 | some 123 => (lib.compact raw).map .json
  | _ => some ((double lib raw).elim (.string raw) .number)

/-- Whether a value is no value. -/
def isBlank (raw : Bytes) : Bool := trimSpace raw = [] ∨ isNull (trimSpace raw)

/-- What writing an Attribute makes of the Attributes. -/
def write (attrs : Attributes D) (name raw : Bytes) : Attributes D :=
  if isBlank raw ∨ name.length > maxNameBytes then attrs
  else
    match valueOf lib (trimSpace raw) with
    | some v => (deleteAttribute attrs name).put name v.cut
    | none => deleteAttribute attrs name

/-- Whether a limit cuts or drops an Attribute that is written. -/
def cuts (name raw : Bytes) : Bool :=
  !isBlank raw && (decide (name.length > maxNameBytes) || (valueOf lib (trimSpace raw)).any Value.isLong)

/-- Setting a string puts it under its name. -/
theorem Normaliser.setString_eq (n : Normaliser D) (name s : Bytes) : n.setString name s =
    ⟨{ n.log with attributes := n.log.attributes.put name (.string (cutText s)) },
      n.truncated || decide (maxStringBytes < s.length)⟩ := by
  unfold Normaliser.setString Normaliser.cut cutText
  by_cases h : s.length ≤ maxStringBytes
  · simp [h, Normaliser.withAttributes, Attributes.put, Nat.not_lt.2 h]
  · simp [h, Normaliser.withAttributes, Attributes.put, Nat.lt_of_not_le h]

/-- Setting an Attribute writes it, and notes whether a limit cut it. -/
theorem Normaliser.setAttribute_eq (n : Normaliser D) (name raw : Bytes) : n.setAttribute lib name raw =
    ⟨{ n.log with attributes := write lib n.log.attributes name raw }, n.truncated || cuts lib name raw⟩ := by
  unfold Normaliser.setAttribute write cuts
  dsimp only
  by_cases hblank : trimSpace raw = [] ∨ isNull (trimSpace raw) = true
  · have hisBlank : isBlank raw = true := decide_eq_true hblank
    simp [hblank, hisBlank]
  have hisBlank : isBlank raw = false := decide_eq_false hblank
  rw [if_neg hblank, hisBlank]
  by_cases hlong : name.length > maxNameBytes
  · simp [hlong]
  rw [if_neg hlong, if_neg (by simp [hlong]), decide_eq_false hlong]
  have hset : ∀ v : Value D, v.cut = v → v.isLong = false →
      (n.withAttributes (deleteAttribute n.log.attributes name)).withAttributes
        ((deleteAttribute n.log.attributes name).put name v) =
      ⟨{ n.log with attributes := (deleteAttribute n.log.attributes name).put name v.cut },
        n.truncated || (some v).any Value.isLong⟩ := by
    intro v hcut hshort
    rw [hcut, Option.any_some, hshort, Bool.or_false]
    rfl
  have hstring : ∀ s, (n.withAttributes (deleteAttribute n.log.attributes name)).setString name s =
      ⟨{ n.log with attributes := (deleteAttribute n.log.attributes name).put name (Value.string s).cut },
        n.truncated || (some (Value.string s : Value D)).any Value.isLong⟩ := fun s => Normaliser.setString_eq _ _ s
  have hdelete : n.withAttributes (deleteAttribute n.log.attributes name) =
      ⟨{ n.log with attributes := deleteAttribute n.log.attributes name },
        n.truncated || (none : Option (Value D)).any Value.isLong⟩ := by
    rw [Option.any_none, Bool.or_false]
    rfl
  rw [Bool.not_false, Bool.true_and, Bool.false_or]
  split
  next h =>
    have hvalue : valueOf lib (trimSpace raw) = (parseString lib (trimSpace raw)).map .string := by
      rw [valueOf, h]
      rfl
    rw [hvalue]
    cases parseString lib (trimSpace raw) with
    | none => exact hdelete
    | some s => exact hstring s
  next h =>
    rw [show valueOf lib (trimSpace raw) = some (.bool true) by rw [valueOf, h]; rfl]
    exact hset (.bool true) rfl rfl
  next h =>
    rw [show valueOf lib (trimSpace raw) = some (.bool false) by rw [valueOf, h]; rfl]
    exact hset (.bool false) rfl rfl
  next h =>
    rw [show valueOf lib (trimSpace raw) = (lib.compact (trimSpace raw)).map .json by rw [valueOf, h]; rfl]
    cases lib.compact (trimSpace raw) with
    | none => exact hdelete
    | some j => exact hset (.json j) rfl rfl
  next h =>
    rw [show valueOf lib (trimSpace raw) = (lib.compact (trimSpace raw)).map .json by rw [valueOf, h]; rfl]
    cases lib.compact (trimSpace raw) with
    | none => exact hdelete
    | some j => exact hset (.json j) rfl rfl
  next hstringHead htrue hfalse harray hobject =>
    have hvalue : valueOf lib (trimSpace raw) =
        some ((double lib (trimSpace raw)).elim (.string (trimSpace raw)) .number) := by
      unfold valueOf
      split <;> first | rfl | contradiction
    rw [hvalue]
    cases double lib (trimSpace raw) with
    | none => exact hstring (trimSpace raw)
    | some d => exact hset (.number d) rfl rfl

/-- Write Attributes one after another. -/
def writeAll (attrs : Attributes D) (writes : List (Bytes × Bytes)) : Attributes D :=
  writes.foldl (fun attrs w => write lib attrs w.1 w.2) attrs

/-- Whether a limit cuts or drops one of the Attributes written. -/
def cutsAny (writes : List (Bytes × Bytes)) : Bool := writes.any fun w => cuts lib w.1 w.2

/-- A Log with more Attributes written. -/
def Normaliser.writing (n : Normaliser D) (writes : List (Bytes × Bytes)) : Normaliser D :=
  ⟨{ n.log with attributes := writeAll lib n.log.attributes writes }, n.truncated || cutsAny lib writes⟩

/-- Writes one after another are all of them together. -/
theorem Normaliser.writing_append (n : Normaliser D) (writes more : List (Bytes × Bytes)) :
    (n.writing lib writes).writing lib more = n.writing lib (writes ++ more) := by
  simp [Normaliser.writing, writeAll, cutsAny, Bool.or_assoc]

/-- Setting attributes one by one is writing them. -/
theorem Normaliser.foldl_setAttribute (n : Normaliser D) (writes : List (Bytes × Bytes)) :
    writes.foldl (fun n w => n.setAttribute lib w.1 w.2) n = n.writing lib writes := by
  induction writes generalizing n with
  | nil => simp [Normaliser.writing, writeAll, cutsAny]
  | cons w rest ih =>
    have hfirst : n.setAttribute lib w.1 w.2 = n.writing lib [w] := by
      rw [Normaliser.setAttribute_eq]
      simp [Normaliser.writing, writeAll, cutsAny]
    rw [List.foldl_cons, ih, hfirst, Normaliser.writing_append, List.singleton_append]

/-- The sender's own Attributes, as they are written. -/
def ownWrites (attributes : Object) : List (Bytes × Bytes) :=
  (attributes.keys.insertionSort (· ≤ ·)).filterMap fun name =>
    (attributes.lookup name).map fun raw => (unreserved name, raw)

/-- Setting a Log's own attributes is writing them, in the order of their names. -/
theorem Normaliser.setAttributes_eq (n : Normaliser D) (attributes : Object) :
    n.setAttributes lib attributes = n.writing lib (ownWrites attributes) := by
  rw [Normaliser.setAttributes, ← Normaliser.foldl_setAttribute, ownWrites, List.foldl_filterMap]
  congr 1
  funext n name
  cases attributes.lookup name <;> rfl

end Writing

section Fields

variable (lib : Library D) (s : Sent) (r : Receipt)

/-- What is read of the value sent for a field. -/
def fieldValue (f : Field) (parse : Bytes → Option Bytes) : Bytes := ((s.fields f).bind parse).getD []

/-- The write of a value that can't fill its field. -/
def unfilled (f : Field) (fills : Bytes → Bool) : List (Bytes × Bytes) :=
  match s.fields f with
  | some raw => if fills raw then [] else [(original ++ names f, raw)]
  | none => []

/-- Cutting a text tells whether it was too long. -/
theorem Normaliser.cut_eq (n : Normaliser D) (text : Bytes) :
    n.cut text = (⟨n.log, n.truncated || decide (maxStringBytes < text.length)⟩, cutText text) := by
  unfold Normaliser.cut cutText
  by_cases h : text.length ≤ maxStringBytes
  · simp [h, Nat.not_lt.2 h]
  · simp [h, Nat.lt_of_not_le h]

/-- Reading a field writes what can't fill it. -/
theorem Normaliser.fill_eq (n : Normaliser D) (f : Field) (parse : Bytes → Option Bytes) :
    n.fill lib s f parse =
      (⟨(n.writing lib (unfilled s f fun raw => (parse raw).isSome)).log,
        (n.writing lib (unfilled s f fun raw => (parse raw).isSome)).truncated ||
          decide (maxStringBytes < (fieldValue s f parse).length)⟩, cutText (fieldValue s f parse)) := by
  unfold Normaliser.fill fieldValue unfilled
  cases s.fields f with
  | none => simp [Normaliser.writing, writeAll, cutsAny, cutText]
  | some raw =>
    dsimp only [Option.bind_some]
    obtain hparse | ⟨value, hparse⟩ := Option.eq_none_or_eq_some (parse raw)
    · simp [hparse, Normaliser.cut_eq, Normaliser.setAttribute_eq, Normaliser.writing, writeAll, cutsAny]
    · simp [hparse, Normaliser.cut_eq, Normaliser.writing, writeAll, cutsAny]

/-- Whether a time can be a Log's. -/
def fillsTime (raw : Bytes) : Bool := ((parseTime lib raw).filter r.inWindow).isSome

/-- How a field's value is read as text. -/
def parseField : Field → Bytes → Option Bytes
  | .level => parseLevel lib
  | .traceID => hexID lib 32
  | .spanID => hexID lib 16
  | _ => parseString lib

/-- Whether a value can fill its field. -/
def fills (f : Field) (raw : Bytes) : Bool :=
  match f with
  | .timeField => fillsTime lib r raw
  | f => (parseField lib f raw).isSome

/-- The fields in the order they are filled. -/
def fillOrder : List Field := [.level, .message, .service, .environment, .traceID, .spanID, .timeField]

/-- All Attributes that are written, in order. -/
def writesOf : List (Bytes × Bytes) :=
  ownWrites s.attributes ++ fillOrder.flatMap fun f => unfilled s f (fills lib r f)

def textFields : List Field := [.level, .message, .service, .environment, .traceID, .spanID]

/-- The time of a Log: its own when it can be used, else its receipt. -/
def timeOf : ℤ := (((s.fields .timeField).bind (parseTime lib)).filter r.inWindow).getD r.at'

/-- The text that fills a field, before it is cut. -/
def textOf (f : Field) : Bytes := fieldValue s f (parseField lib f)

/-- The Log before its Attributes are limited. -/
def filled : Log D where
  time := timeOf lib s r
  level := cutText (textOf lib s .level)
  message := cutText (textOf lib s .message)
  service := cutText (textOf lib s .service)
  environment := cutText (textOf lib s .environment)
  traceID := cutText (textOf lib s .traceID)
  spanID := cutText (textOf lib s .spanID)
  attributes := writeAll lib .none (writesOf lib s r)

/-- Whether a limit cut a string or dropped an Attribute for its name. -/
def isCut : Bool :=
  cutsAny lib (writesOf lib s r) || textFields.any fun f => maxStringBytes < (textOf lib s f).length

/-- Filling the fields gives the Log that is filled, marked when anything was cut. -/
theorem fillFields_eq :
    ((⟨.none, false⟩ : Normaliser D).setAttributes lib s.attributes).fillFields lib s r =
      ⟨filled lib s r, isCut lib s r⟩ := by
  have hwrites : writesOf lib s r = ownWrites s.attributes ++
      (unfilled s .level fun raw => (parseLevel lib raw).isSome) ++
      (unfilled s .message fun raw => (parseString lib raw).isSome) ++
      (unfilled s .service fun raw => (parseString lib raw).isSome) ++
      (unfilled s .environment fun raw => (parseString lib raw).isSome) ++
      (unfilled s .traceID fun raw => (hexID lib 32 raw).isSome) ++
      (unfilled s .spanID fun raw => (hexID lib 16 raw).isSome) ++
      unfilled s .timeField (fillsTime lib r) := by
    simp only [writesOf, fillOrder, List.flatMap_cons, List.flatMap_nil, List.append_nil, List.append_assoc]
    rfl
  rw [filled, isCut, hwrites]
  unfold Normaliser.fillFields timeOf
  simp only [Normaliser.setAttributes_eq, Normaliser.fill_eq, Normaliser.writing]
  cases hraw : s.fields .timeField with
  | none =>
    have htime : unfilled s .timeField (fillsTime lib r) = [] := by rw [unfilled, hraw]
    rw [htime]
    dsimp only
    congr 1
    · simp [writeAll, textOf, parseField, Log.none]
    · simp only [cutsAny, List.any_append, List.any_cons, List.any_nil, textFields, textOf, parseField,
        Bool.or_false, Bool.false_or]
      ac_rfl
  | some raw =>
    dsimp only [Option.bind_some]
    obtain hparse | ⟨t, hparse⟩ := Option.eq_none_or_eq_some ((parseTime lib raw).filter r.inWindow)
    · have htime : unfilled s .timeField (fillsTime lib r) = [(original ++ names .timeField, raw)] := by
        simp [unfilled, hraw, fillsTime, hparse]
      rw [htime, hparse]
      dsimp only
      rw [Normaliser.setAttribute_eq]
      congr 1
      · simp [writeAll, textOf, parseField, Log.none]
      · simp only [cutsAny, List.any_append, List.any_cons, List.any_nil, textFields, textOf, parseField,
          Bool.or_false, Bool.false_or]
        ac_rfl
    · have htime : unfilled s .timeField (fillsTime lib r) = [] := by
        simp [unfilled, hraw, fillsTime, hparse]
      rw [htime, hparse]
      dsimp only
      congr 1
      · simp [writeAll, textOf, parseField, Log.none]
      · simp only [cutsAny, List.any_append, List.any_cons, List.any_nil, textFields, textOf, parseField,
          Bool.or_false, Bool.false_or]
        ac_rfl

/-- Normalising, before the size of the Log is measured. -/
theorem normaliserOf_eq :
    normaliserOf lib s r = (⟨filled lib s r, isCut lib s r⟩ : Normaliser D).limitAttributes := by
  rw [normaliserOf, fillFields_eq]

end Fields

end SolidTrace.Normalise
