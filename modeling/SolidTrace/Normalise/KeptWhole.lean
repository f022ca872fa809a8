import Mathlib.Data.List.DropRight
import SolidTrace.Normalise.Limits

/-!
# Kept whole

Where each value a sender sent goes: the built-in field it fills, or an Attribute. A Log that is kept holds
every value, unless two of them go to one Attribute: that happens to a name that is reserved and to a value
that can't fill its field, when the sender also sent the Attribute they are renamed to.
-/

namespace SolidTrace.Normalise

variable {D : Type}

section Trim

/-- Trimming drops the spaces of both ends. -/
theorem trimSpace_eq_rdropWhile (raw : Bytes) : trimSpace raw = (raw.dropWhile isSpace).rdropWhile isSpace := rfl

/-- What was trimmed has no spaces to trim. -/
theorem trimSpace_trimSpace (raw : Bytes) : trimSpace (trimSpace raw) = trimSpace raw := by
  rw [trimSpace_eq_rdropWhile, trimSpace_eq_rdropWhile]
  set left := raw.dropWhile isSpace with hleft
  have hpart : left.rdropWhile isSpace <+: left := List.rdropWhile_prefix _ _
  have hfirst : (left.rdropWhile isSpace).dropWhile isSpace = left.rdropWhile isSpace := by
    rw [List.dropWhile_eq_self_iff]
    intro hpos
    rw [hpart.getElem hpos]
    exact List.dropWhile_eq_self_iff.1 (hleft ▸ List.dropWhile_idempotent _ _) _
  rw [hfirst, List.rdropWhile_idempotent]

end Trim

section Writes

variable {lib : Library D}

/-- A write that sets an Attribute to the whole of a value. -/
def IsWhole (lib : Library D) (w : Bytes × Bytes) (v : Value D) : Prop :=
  isBlank w.2 = false ∧ w.1.length ≤ maxNameBytes ∧ valueOf lib (trimSpace w.2) = some v ∧ v.isLong = false

/-- A value that is not long is not cut. -/
theorem cut_of_not_isLong {v : Value D} (h : v.isLong = false) : v.cut = v := by
  cases v with
  | string s => rw [Value.cut, cutText_of_le (Nat.le_of_not_lt (of_decide_eq_false h))]
  | number d => rfl
  | bool b => rfl
  | json j => rfl

/-- A value that is whole is stored as it is under its name. -/
theorem values_write_self {attrs : Attributes D} {w : Bytes × Bytes} {v : Value D} (h : IsWhole lib w v) :
    (write lib attrs w.1 w.2).values w.1 = [v] := by
  obtain ⟨hblank, hname, hvalue, hshort⟩ := h
  have hwritten : ¬(isBlank w.2 = true ∨ w.1.length > maxNameBytes) := by
    rw [hblank, not_or]
    exact ⟨Bool.false_ne_true, Nat.not_lt.2 hname⟩
  rw [write, if_neg hwritten, hvalue]
  dsimp only
  rw [values_put_self _ (by rw [values_delete, if_pos rfl]), cut_of_not_isLong hshort]

/-- Storing a value leaves the other names' values. -/
theorem values_write_ne {attrs : Attributes D} {name other raw : Bytes} (h : other ≠ name) :
    (write lib attrs name raw).values other = attrs.values other := by
  unfold write
  split
  · rfl
  · split
    · rw [values_put_ne _ h, values_delete, if_neg h]
    · rw [values_delete, if_neg h]

/-- Storing values leaves the values of the names that none of them has. -/
theorem values_writeAll_ne {attrs : Attributes D} {writes : List (Bytes × Bytes)} {name : Bytes}
    (h : name ∉ writes.map Prod.fst) : (writeAll lib attrs writes).values name = attrs.values name := by
  induction writes generalizing attrs with
  | nil => rfl
  | cons w rest ih =>
    rw [List.map_cons, List.mem_cons, not_or] at h
    exact (ih h.2).trans (values_write_ne h.1)

/-- Writes under names of their own are all found. -/
theorem values_writeAll {attrs : Attributes D} {writes : List (Bytes × Bytes)}
    (hnodup : (writes.map Prod.fst).Nodup) {w : Bytes × Bytes} (hw : w ∈ writes) {v : Value D}
    (hv : IsWhole lib w v) : (writeAll lib attrs writes).values w.1 = [v] := by
  induction writes generalizing attrs with
  | nil => cases hw
  | cons first rest ih =>
    rw [List.map_cons, List.nodup_cons] at hnodup
    rcases List.mem_cons.1 hw with rfl | hw
    · exact (values_writeAll_ne hnodup.1).trans (values_write_self hv)
    · exact ih hnodup.2 hw

end Writes

section Sent

variable (lib : Library D) (order : IterationOrder) (object : Object)

/-- The alias a field is read from. -/
def aliasOf (values : Object) (f : Field) : Option Bytes := (jsonAliases f).find? (· ∈ values)

/-- Fields are told apart by their aliases and by their names, which are not reserved. -/
theorem fields_apart : (∀ f ∈ Field.all, ∀ g ∈ Field.all,
    (∀ name ∈ jsonAliases f, name ∈ jsonAliases g → f = g) ∧ (names f = names g → f = g)) ∧
    ∀ f ∈ Field.all, reservedPrefix.isPrefixOf (names f) = false := by
  decide +kernel

/-- Every field is one of all. -/
theorem mem_all (f : Field) : f ∈ Field.all := by cases f <;> decide

/-- No name stands for two fields. -/
theorem jsonAliases_disjoint {f g : Field} {name : Bytes} (hf : name ∈ jsonAliases f) (hg : name ∈ jsonAliases g) :
    f = g :=
  (fields_apart.1 f (mem_all f) g (mem_all g)).1 name hf hg

/-- What is picked once the fields `done` are. -/
structure Picked (values : Object) (done : List Field) (s : Sent) : Prop where
  fields : ∀ f, s.fields f = if f ∈ done then (aliasOf values f).bind (values.lookup ·) else none
  attributes : ∀ name, s.attributes.lookup name =
    if ∃ f ∈ done, aliasOf values f = some name then none else values.lookup name

/-- The alias that a field takes is one of its own. -/
theorem mem_jsonAliases_of_aliasOf {values : Object} {f : Field} {name : Bytes} (h : aliasOf values f = some name) :
    name ∈ jsonAliases f := List.mem_of_find?_eq_some h

/-- What is found depends on the list's own elements only. -/
theorem find?_congr {α : Type} {p q : α → Bool} {xs : List α} (h : ∀ x ∈ xs, p x = q x) :
    xs.find? p = xs.find? q := by
  induction xs with
  | nil => rfl
  | cons x rest ih =>
    rw [List.find?_cons, List.find?_cons, h x List.mem_cons_self,
      ih fun y hy => h y (List.mem_cons_of_mem _ hy)]

/-- Picking a field more takes its first alias out of the attributes. -/
theorem Picked.pick {values : Object} {done : List Field} {s : Sent} (h : Picked values done s) {f : Field}
    (hf : f ∉ done) : Picked values (done ++ [f]) (s.pick jsonAliases f) := by
  have hmem : ∀ name ∈ jsonAliases f, name ∈ s.attributes ↔ name ∈ values := by
    intro name hname
    have hnone : ¬∃ g ∈ done, aliasOf values g = some name := by
      rintro ⟨g, hg, halias⟩
      exact hf (jsonAliases_disjoint (mem_jsonAliases_of_aliasOf halias) hname ▸ hg)
    rw [← AList.lookup_isSome, h.attributes, if_neg hnone, AList.lookup_isSome]
  have hfind : (jsonAliases f).find? (· ∈ s.attributes) = aliasOf values f :=
    find?_congr fun name hname => decide_eq_decide.2 (hmem name hname)
  unfold Sent.pick
  rw [hfind]
  cases halias : aliasOf values f with
  | none =>
    constructor
    · intro g
      rw [h.fields]
      by_cases hg : g = f
      · subst hg
        simp [hf, halias]
      · simp [hg]
    · intro name
      rw [h.attributes]
      simp only [List.mem_append, List.mem_singleton, or_and_right, exists_or, exists_eq_left, halias]
      simp
  | some own =>
    have hlookup : s.attributes.lookup own = values.lookup own := by
      have hnone : ¬∃ g ∈ done, aliasOf values g = some own := by
        rintro ⟨g, hg, hg'⟩
        exact hf (jsonAliases_disjoint (mem_jsonAliases_of_aliasOf hg') (mem_jsonAliases_of_aliasOf halias) ▸ hg)
      rw [h.attributes, if_neg hnone]
    constructor
    · intro g
      dsimp only
      by_cases hg : g = f
      · subst hg
        rw [Function.update_self, if_pos (by simp), halias, hlookup]
        rfl
      · rw [Function.update_of_ne hg, h.fields]
        simp [hg]
    · intro name
      dsimp only
      by_cases hname : name = own
      · subst hname
        rw [AList.lookup_erase, if_pos ⟨f, by simp, halias⟩]
      · rw [AList.lookup_erase_ne hname, h.attributes]
        simp only [List.mem_append, List.mem_singleton, or_and_right, exists_or, exists_eq_left, halias,
          Option.some.injEq, Ne.symm hname, or_false]

/-- All fields are picked of what was sent. -/
theorem picked_sentOf : Picked (flatten lib.unmarshalObject order object) Field.all
    (sentOf lib order object jsonAliases) := by
  have hnone : Picked (flatten lib.unmarshalObject order object) []
      ⟨fun _ => none, flatten lib.unmarshalObject order object⟩ := ⟨fun f => by simp, fun name => by simp⟩
  have hall : ∀ (rest done : List Field) (s : Sent), (done ++ rest).Nodup →
      Picked (flatten lib.unmarshalObject order object) done s →
      Picked (flatten lib.unmarshalObject order object) (done ++ rest) (rest.foldl (Sent.pick jsonAliases) s) := by
    intro rest
    induction rest with
    | nil => exact fun done s _ h => by rwa [List.append_nil]
    | cons f rest ih =>
      intro done s hnodup h
      have hf : f ∉ done := fun hf => List.disjoint_of_nodup_append hnodup hf List.mem_cons_self
      have hnext := ih (done ++ [f]) (s.pick jsonAliases f) (by rwa [List.append_assoc]) (h.pick hf)
      rwa [List.append_assoc] at hnext
  exact hall Field.all [] _ (by decide) hnone

end Sent

section Places

variable (lib : Library D) (r : Receipt) (values : Object)

/-- Where a value that was sent goes. -/
inductive Place where
  | field (f : Field)
  | attribute (name : Bytes)
deriving DecidableEq

/-- The field a name is read as. -/
def fieldOf (name : Bytes) : Option Field := Field.all.find? fun f => aliasOf values f = some name

/-- Where a name's value goes. -/
def placeOf (name raw : Bytes) : Place :=
  match fieldOf values name with
  | some f => if fills lib r f raw then .field f else .attribute (original ++ names f)
  | none => .attribute (unreserved name)

/-- A Log has a value where it goes: in the field it fills, or as an Attribute of one type. -/
def Found (log : Log D) (raw : Bytes) : Place → Prop
  | .field .timeField => parseTime lib raw = some log.time
  | .field f => parseField lib f raw = some (log.text f)
  | .attribute name => ∃ v, valueOf lib (trimSpace raw) = some v ∧ log.attributes.values name = [v]

/-- A Log has every value that was sent, each in a place of its own. -/
structure IsWholeLog (log : Log D) : Prop where
  found : ∀ name raw, values.lookup name = some raw → Found lib log raw (placeOf lib r values name raw)
  apart : ∀ name raw other rawOther, values.lookup name = some raw → values.lookup other = some rawOther →
    name ≠ other → placeOf lib r values name raw ≠ placeOf lib r values other rawOther

/-- No value is renamed to an Attribute that was also sent. -/
structure NoClash (s : Sent) : Prop where
  reserved : ∀ name ∈ s.attributes, IsReserved name → original ++ name ∉ s.attributes
  unfilled : ∀ f raw, s.fields f = some raw → fills lib r f raw = false → original ++ names f ∉ s.attributes

variable {lib r values} {s : Sent}

/-- The field of a name is the one that takes the name as its alias. -/
theorem fieldOf_eq_some_iff {name : Bytes} {f : Field} :
    fieldOf values name = some f ↔ aliasOf values f = some name := by
  constructor
  · intro h
    have hf := List.find?_some h
    exact of_decide_eq_true hf
  · intro halias
    cases hfield : fieldOf values name with
    | none =>
      have hnone := List.find?_eq_none.1 hfield f (by cases f <;> decide)
      exact absurd (decide_eq_true halias) hnone
    | some g =>
      have hg := List.find?_some hfield
      rw [jsonAliases_disjoint (mem_jsonAliases_of_aliasOf (of_decide_eq_true hg)) (mem_jsonAliases_of_aliasOf halias)]

/-- What is left as an attribute is what no field takes. -/
theorem Picked.attributes_eq (h : Picked values Field.all s) (name : Bytes) :
    s.attributes.lookup name = if fieldOf values name = none then values.lookup name else none := by
  rw [h.attributes]
  by_cases hsome : ∃ f ∈ Field.all, aliasOf values f = some name
  · obtain ⟨f, -, halias⟩ := id hsome
    rw [if_pos hsome, if_neg]
    rw [fieldOf_eq_some_iff.2 halias]
    exact Option.some_ne_none f
  · rw [if_neg hsome, if_pos]
    cases hfield : fieldOf values name with
    | none => rfl
    | some f => exact absurd ⟨f, by cases f <;> decide, fieldOf_eq_some_iff.1 hfield⟩ hsome

/-- A field holds the value of the alias it takes. -/
theorem Picked.fields_eq (h : Picked values Field.all s) (f : Field) :
    s.fields f = (aliasOf values f).bind (values.lookup ·) := by
  rw [h.fields, if_pos (by cases f <;> decide)]

/-- What is left as an attribute has its place among the attributes. -/
theorem placeOf_of_mem (h : Picked values Field.all s) {name : Bytes} (hname : name ∈ s.attributes) (raw : Bytes) :
    fieldOf values name = none ∧ placeOf lib r values name raw = .attribute (unreserved name) := by
  have hfield : fieldOf values name = none := by
    by_contra hne
    rw [← AList.lookup_isSome, h.attributes_eq, if_neg hne] at hname
    cases hname
  exact ⟨hfield, by rw [placeOf, hfield]⟩

/-- A reserved name is put under original. -/
theorem unreserved_of_isReserved {name : Bytes} (h : IsReserved name) : unreserved name = original ++ name := if_pos h

/-- A name that is not reserved is left as it is. -/
theorem unreserved_of_not {name : Bytes} (h : ¬IsReserved name) : unreserved name = name := if_neg h

/-- The prefix of a renamed name is not empty. -/
theorem original_ne_nil : original ≠ [] := by
  rw [known_names.1.2]
  exact List.cons_ne_nil _ _

/-- Values in places of their own: no value is renamed to an Attribute that was also sent. -/
theorem IsWholeLog.noClash {log : Log D} (h : IsWholeLog lib r values log) (hs : Picked values Field.all s) :
    NoClash lib r s := by
  have hraw : ∀ name ∈ s.attributes, ∃ raw, values.lookup name = some raw := by
    intro name hname
    obtain ⟨raw, hraw⟩ := Option.isSome_iff_exists.1 (AList.lookup_isSome.2 hname)
    rw [hs.attributes_eq, if_pos (@placeOf_of_mem D lib r values s hs name hname []).1] at hraw
    exact ⟨raw, hraw⟩
  constructor
  · intro name hname hreserved horiginal
    obtain ⟨raw, hraw₁⟩ := hraw name hname
    obtain ⟨rawOther, hraw₂⟩ := hraw _ horiginal
    refine h.apart name raw _ rawOther hraw₁ hraw₂ (fun heq => original_ne_nil ?_) ?_
    · exact List.self_eq_append_left.1 heq
    · rw [(placeOf_of_mem hs hname raw).2, (placeOf_of_mem hs horiginal rawOther).2, unreserved_of_isReserved hreserved,
        unreserved_of_not (not_isReserved_original name)]
  · intro f raw hfield hunfilled horiginal
    rw [hs.fields_eq, Option.bind_eq_some_iff] at hfield
    obtain ⟨name, halias, hlookup⟩ := hfield
    obtain ⟨rawOther, hrawOther⟩ := hraw _ horiginal
    have hfieldOf := fieldOf_eq_some_iff.2 halias
    have hplace := @placeOf_of_mem D lib r values s hs _ horiginal rawOther
    refine h.apart name raw _ rawOther hlookup hrawOther ?_ ?_
    · rintro rfl
      rw [hplace.1] at hfieldOf
      cases hfieldOf
    · rw [hplace.2, unreserved_of_not (not_isReserved_original _), placeOf, hfieldOf]
      dsimp only
      rw [hunfilled]
      rfl

end Places

section JSONValues

variable {lib : Library D} {isJSON : Bytes → Prop}

/-- What Go's standard library does of JSON values: it decodes strings, compacts arrays and objects, and an
object's members are JSON values. -/
structure ReadsJSON (lib : Library D) (isJSON : Bytes → Prop) : Prop where
  string : ∀ raw, isJSON raw → raw.head? = some 34 → ∃ text, lib.unmarshalString raw = some text
  compact : ∀ raw, isJSON raw → raw.head? = some 91 ∨ raw.head? = some 123 → ∃ text, lib.compact raw = some text
  members : ∀ raw inner, isJSON raw → lib.unmarshalObject raw = some inner →
    ∀ key sent, inner.lookup key = some sent → isJSON sent
  trim : ∀ raw, isJSON raw → isJSON (trimSpace raw)

/-- A value that keys lead to is JSON, trimmed and not null. -/
theorem ReadsJSON.of_leadsTo (h : ReadsJSON lib isJSON) {levels : ℕ} {object : Object} {keys : List Bytes}
    {value : Bytes} (hobject : ∀ key sent, object.lookup key = some sent → isJSON sent)
    (hleads : LeadsTo lib.unmarshalObject levels object keys value) :
    isJSON value ∧ trimSpace value = value ∧ isBlank value = false := by
  induction keys generalizing levels object with
  | nil => exact hleads.elim
  | cons key rest ih =>
    obtain ⟨sent, hsent, hvalue, hleads⟩ := hleads
    have hjson := h.trim sent (hobject key sent hsent)
    split at hleads
    next inner hinner =>
      refine ih (fun key' sent' hsent' => h.members _ inner hjson ?_ key' sent' hsent') hleads
      cases levels with
      | zero => cases hinner
      | succ levels =>
        change innerObject lib.unmarshalObject (trimSpace sent) = some inner at hinner
        unfold innerObject at hinner
        split at hinner
        · exact hinner
        · cases hinner
    · obtain ⟨-, rfl⟩ := hleads
      refine ⟨hjson, trimSpace_trimSpace sent, ?_⟩
      rw [isBlank, trimSpace_trimSpace]
      exact decide_eq_false hvalue

/-- The values of an object of JSON are JSON, however deep. -/
theorem ReadsJSON.of_flatten (h : ReadsJSON lib isJSON) {order : IterationOrder} {object : Object}
    (hobject : ∀ key sent, object.lookup key = some sent → isJSON sent) {name raw : Bytes}
    (hraw : (flatten lib.unmarshalObject order object).lookup name = some raw) :
    isJSON raw ∧ trimSpace raw = raw ∧ isBlank raw = false := by
  rw [lookup_flatten, Option.map_eq_some_iff] at hraw
  obtain ⟨form, hform, rfl⟩ := hraw
  have hbest := (decides_visited object).winners_eq_some_iff.1 hform
  exact h.of_leadsTo hobject (mem_visited_iff_isForm.1 hbest.1)

/-- A JSON value has a type. -/
theorem ReadsJSON.valueOf (h : ReadsJSON lib isJSON) {raw : Bytes} (hraw : isJSON raw) :
    ∃ v, valueOf lib raw = some v := by
  unfold Normalise.valueOf
  split
  next hhead =>
    obtain ⟨text, htext⟩ := h.string raw hraw hhead
    exact ⟨.string text, by rw [parseString, htext]; rfl⟩
  · exact ⟨_, rfl⟩
  · exact ⟨_, rfl⟩
  next hhead =>
    obtain ⟨text, htext⟩ := h.compact raw hraw (.inl hhead)
    exact ⟨.json text, by rw [htext]; rfl⟩
  next hhead =>
    obtain ⟨text, htext⟩ := h.compact raw hraw (.inr hhead)
    exact ⟨.json text, by rw [htext]; rfl⟩
  · exact ⟨_, rfl⟩

end JSONValues

section Kept

variable {lib : Library D} {s : Sent} {r : Receipt}

/-- A Log that is kept is what was filled, with nothing cut. -/
theorem eq_filled_of_kept (h : (normaliseSent lib s r).2 = .kept) :
    (normaliseSent lib s r).1 = filled lib s r ∧ isCut lib s r = false := by
  have hn : normaliserOf lib s r = ⟨{ filled lib s r with attributes := limited (filled lib s r).attributes },
      isCut lib s r || decide (maxAttributes < (filled lib s r).attributes.names.length)⟩ := by
    rw [normaliserOf_eq, Normaliser.limitAttributes_eq]
  unfold normaliseSent at h ⊢
  rw [hn] at h ⊢
  dsimp only at h ⊢
  split at h
  · cases h
  next hsize =>
    rw [if_neg hsize]
    split at h
    · cases h
    next hwhole =>
      rw [if_neg hwhole]
      obtain ⟨hcut, hfew⟩ := Bool.or_eq_false_iff.1 (Bool.eq_false_iff.2 hwhole)
      refine ⟨?_, hcut⟩
      rw [limited, if_pos (Nat.le_of_not_lt (of_decide_eq_false hfew))]

/-- The attributes of a Log are stored under their names, the reserved ones renamed. -/
theorem map_fst_ownWrites (attributes : Object) :
    (ownWrites attributes).map Prod.fst = (attributes.keys.insertionSort (· ≤ ·)).map unreserved := by
  have hall : ∀ names : List Bytes, (∀ name ∈ names, name ∈ attributes) →
      (names.filterMap fun name => (attributes.lookup name).map fun raw => (unreserved name, raw)).map Prod.fst =
        names.map unreserved := by
    intro names hnames
    induction names with
    | nil => rfl
    | cons name rest ih =>
      obtain ⟨raw, hraw⟩ := Option.isSome_iff_exists.1 (AList.lookup_isSome.2 (hnames name List.mem_cons_self))
      rw [List.filterMap_cons_some (by rw [hraw]; rfl), List.map_cons, List.map_cons,
        ih fun name hname => hnames name (List.mem_cons_of_mem _ hname)]
  exact hall _ fun name hname => (List.mem_insertionSort _).1 hname

/-- The fields that could not be filled are kept at most once each. -/
theorem sublist_unfilled (canFill : Field → Bytes → Bool) (fields : List Field) :
    ((fields.flatMap fun f => unfilled s f (canFill f)).map Prod.fst).Sublist
      (fields.map fun f => original ++ names f) := by
  induction fields with
  | nil => exact List.Sublist.refl _
  | cons f rest ih =>
    rw [List.flatMap_cons, List.map_append, List.map_cons, ← List.singleton_append]
    refine List.Sublist.append ?_ ih
    unfold unfilled
    split
    · split
      · exact List.nil_sublist _
      · exact List.Sublist.refl _
    · exact List.nil_sublist _

/-- Fields have names of their own. -/
theorem names_inj {f g : Field} (h : names f = names g) : f = g :=
  (fields_apart.1 f (mem_all f) g (mem_all g)).2 h

/-- No field's name is reserved. -/
theorem not_isReserved_names (f : Field) : ¬IsReserved (names f) := by
  rw [IsReserved, fields_apart.2 f (mem_all f)]
  exact Bool.false_ne_true

/-- Without a clash, an Attribute that was sent goes where no other value does. -/
theorem NoClash.unreserved_inj (h : NoClash lib r s) {name other : Bytes} (hname : name ∈ s.attributes)
    (hother : other ∈ s.attributes) (heq : unreserved name = unreserved other) : name = other := by
  by_cases hn : IsReserved name <;> by_cases ho : IsReserved other
  · rw [unreserved_of_isReserved hn, unreserved_of_isReserved ho] at heq
    exact List.append_cancel_left heq
  · rw [unreserved_of_isReserved hn, unreserved_of_not ho] at heq
    exact absurd (heq ▸ hother) (h.reserved name hname hn)
  · rw [unreserved_of_not hn, unreserved_of_isReserved ho] at heq
    exact absurd (heq ▸ hname) (h.reserved other hother ho)
  · rwa [unreserved_of_not hn, unreserved_of_not ho] at heq

/-- No attribute is renamed to what a field is kept under, where no names clash. -/
theorem NoClash.unreserved_ne (h : NoClash lib r s) {name raw : Bytes} {f : Field} (hname : name ∈ s.attributes)
    (hfield : s.fields f = some raw) (hunfilled : fills lib r f raw = false) :
    unreserved name ≠ original ++ names f := by
  intro heq
  by_cases hn : IsReserved name
  · rw [unreserved_of_isReserved hn] at heq
    exact not_isReserved_names f (List.append_cancel_left heq ▸ hn)
  · rw [unreserved_of_not hn] at heq
    exact h.unfilled f raw hfield hunfilled (heq ▸ hname)

/-- Without a clash, every write has a name of its own. -/
theorem NoClash.nodup_writesOf (h : NoClash lib r s) : ((writesOf lib s r).map Prod.fst).Nodup := by
  rw [writesOf, List.map_append, List.nodup_append]
  refine ⟨?_, ?_, ?_⟩
  · rw [map_fst_ownWrites]
    refine List.Nodup.map_on (fun name hname other hother heq => ?_)
      ((List.perm_insertionSort _ _).nodup_iff.2 s.attributes.keys_nodup)
    exact h.unreserved_inj ((List.mem_insertionSort _).1 hname) ((List.mem_insertionSort _).1 hother) heq
  · refine (sublist_unfilled (fills lib r) fillOrder).nodup ?_
    refine List.Nodup.map_on (fun f _ g _ heq => names_inj (List.append_cancel_left heq)) (by decide)
  · intro name hname other hother heq
    rw [map_fst_ownWrites, List.mem_map] at hname
    obtain ⟨own, hown, rfl⟩ := hname
    obtain ⟨w, hw, rfl⟩ := List.mem_map.1 hother
    obtain ⟨f, -, hw⟩ := List.mem_flatMap.1 hw
    obtain ⟨hfield, hunfilled, hw⟩ := mem_unfilled hw
    exact h.unreserved_ne ((List.mem_insertionSort _).1 hown) hfield hunfilled (heq.trans hw)

variable {values : Object}

/-- Every write of a Log that nothing was cut of is found. -/
theorem found_of_mem_writesOf (hnodup : ((writesOf lib s r).map Prod.fst).Nodup) (hcut : isCut lib s r = false)
    {w : Bytes × Bytes} (hw : w ∈ writesOf lib s r) (hblank : isBlank w.2 = false) {v : Value D}
    (hv : valueOf lib (trimSpace w.2) = some v) : (filled lib s r).attributes.values w.1 = [v] := by
  have hcuts : cuts lib w.1 w.2 = false := by
    have hall := List.any_eq_false.1 (Bool.or_eq_false_iff.1 hcut).1 w hw
    exact Bool.eq_false_iff.2 hall
  rw [cuts, hblank, hv] at hcuts
  simp only [Bool.not_false, Bool.true_and, Bool.or_eq_false_iff, decide_eq_false_iff_not, Option.any_some,
    not_lt] at hcuts
  exact values_writeAll hnodup hw ⟨hblank, hcuts.1, hv, hcuts.2⟩

/-- A field's text, when nothing was cut. -/
theorem text_eq_textOf (hcut : isCut lib s r = false) {f : Field} (hf : f ∈ textFields) :
    (filled lib s r).text f = textOf lib s f := by
  have hlong := List.any_eq_false.1 (Bool.or_eq_false_iff.1 hcut).2 f hf
  rw [decide_eq_true_eq, not_lt] at hlong
  rw [text_filled hf, cutText_of_le hlong]

/-- A value that can fill its field is found there. -/
theorem found_field (hcut : isCut lib s r = false) {f : Field} {raw : Bytes} (hfield : s.fields f = some raw)
    (hfills : fills lib r f raw = true) : Found lib (filled lib s r) raw (.field f) := by
  by_cases htime : f = .timeField
  · subst htime
    obtain ⟨t, ht⟩ := Option.isSome_iff_exists.1 hfills
    have htimeOf : timeOf lib s r = t := by
      rw [timeOf, hfield, Option.bind_some, ht]
      rfl
    change parseTime lib raw = some (timeOf lib s r)
    rw [htimeOf]
    exact (Option.filter_eq_some_iff.1 ht).1
  · have hmem : f ∈ textFields := by cases f <;> first | exact absurd rfl htime | decide
    have hparse : ∃ text, parseField lib f raw = some text :=
      Option.isSome_iff_exists.1 (by cases f <;> first | exact absurd rfl htime | exact hfills)
    obtain ⟨text, htext⟩ := hparse
    have htextOf : textOf lib s f = text := by
      rw [textOf, fieldValue, hfield, Option.bind_some, htext]
      rfl
    have hfound : parseField lib f raw = some ((filled lib s r).text f) := by
      rw [text_eq_textOf hcut hmem, htextOf, htext]
    cases f <;> first | exact absurd rfl htime | exact hfound

/-- An attribute of the Log's own is stored. -/
theorem mem_ownWrites_of_lookup {name raw : Bytes} (hraw : s.attributes.lookup name = some raw) :
    (unreserved name, raw) ∈ writesOf lib s r := by
  refine List.mem_append_left _ (List.mem_filterMap.2 ⟨name, ?_, by rw [hraw]; rfl⟩)
  have hmem : name ∈ s.attributes := AList.lookup_isSome.1 (by rw [hraw]; rfl)
  exact (List.mem_insertionSort _).2 hmem

/-- A field that could not be filled is stored. -/
theorem mem_writesOf_of_unfilled {f : Field} {raw : Bytes} (hfield : s.fields f = some raw)
    (hunfilled : fills lib r f raw = false) : (original ++ names f, raw) ∈ writesOf lib s r := by
  refine List.mem_append_right _ (List.mem_flatMap.2 ⟨f, by cases f <;> decide, ?_⟩)
  rw [unfilled, hfield]
  dsimp only
  rw [hunfilled]
  exact List.mem_singleton_self _

/-- Without a clash, a Log that nothing was cut of has every value, each in a place of its own. -/
theorem NoClash.isWholeLog (h : NoClash lib r s) (hs : Picked values Field.all s) (hcut : isCut lib s r = false)
    (hvalues : ∀ name raw, values.lookup name = some raw →
      isBlank raw = false ∧ ∃ v, valueOf lib (trimSpace raw) = some v) :
    IsWholeLog lib r values (filled lib s r) := by
  have hown : ∀ name raw, values.lookup name = some raw → fieldOf values name = none →
      s.attributes.lookup name = some raw := fun name raw hraw hnone => by
    rw [hs.attributes_eq, if_pos hnone, hraw]
  have hfield : ∀ name raw f, values.lookup name = some raw → fieldOf values name = some f →
      s.fields f = some raw := fun name raw f hraw hsome => by
    rw [hs.fields_eq, fieldOf_eq_some_iff.1 hsome, Option.bind_some, hraw]
  have hmem : ∀ {name raw}, s.attributes.lookup name = some raw → name ∈ s.attributes := fun hraw =>
    AList.lookup_isSome.1 (by rw [hraw]; rfl)
  constructor
  · intro name raw hraw
    obtain ⟨hblank, v, hv⟩ := hvalues name raw hraw
    unfold placeOf
    cases hof : fieldOf values name with
    | none =>
      exact ⟨v, hv, found_of_mem_writesOf h.nodup_writesOf hcut
        (mem_ownWrites_of_lookup (hown name raw hraw hof)) hblank hv⟩
    | some f =>
      have hsent := hfield name raw f hraw hof
      dsimp only
      cases hfills : fills lib r f raw with
      | true => exact found_field hcut hsent hfills
      | false =>
        exact ⟨v, hv, found_of_mem_writesOf h.nodup_writesOf hcut
          (mem_writesOf_of_unfilled hsent hfills) hblank hv⟩
  · intro name raw other rawOther hraw hrawOther hne hplace
    unfold placeOf at hplace
    cases hof : fieldOf values name with
    | none =>
      have hname := hown name raw hraw hof
      rw [hof] at hplace
      cases hofOther : fieldOf values other with
      | none =>
        rw [hofOther] at hplace
        exact hne (h.unreserved_inj (hmem hname) (hmem (hown other rawOther hrawOther hofOther))
          (Place.attribute.inj hplace))
      | some g =>
        rw [hofOther] at hplace
        dsimp only at hplace
        cases hfills : fills lib r g rawOther with
        | true => simp [hfills] at hplace
        | false =>
          rw [hfills] at hplace
          exact h.unreserved_ne (hmem hname) (hfield other rawOther g hrawOther hofOther) hfills
            (Place.attribute.inj hplace)
    | some f =>
      have hsent := hfield name raw f hraw hof
      rw [hof] at hplace
      cases hofOther : fieldOf values other with
      | none =>
        rw [hofOther] at hplace
        dsimp only at hplace
        cases hfills : fills lib r f raw with
        | true => simp [hfills] at hplace
        | false =>
          rw [hfills] at hplace
          exact h.unreserved_ne (hmem (hown other rawOther hrawOther hofOther)) hsent hfills
            (Place.attribute.inj hplace).symm
      | some g =>
        have hfg : f = g := by
          rw [hofOther] at hplace
          dsimp only at hplace
          cases hfills : fills lib r f raw <;> cases hfillsOther : fills lib r g rawOther <;>
            simp only [hfills, hfillsOther, if_true, Bool.false_eq_true, if_false, reduceCtorEq] at hplace
          · exact names_inj (List.append_cancel_left (Place.attribute.inj hplace))
          · exact Place.field.inj hplace
        subst hfg
        exact hne (Option.some.inj ((fieldOf_eq_some_iff.1 hof).symm.trans (fieldOf_eq_some_iff.1 hofOther)))

/-- A Log that is kept has every value a sender sent, each in a place of its own, if and only if no value is
renamed to an Attribute that was also sent. -/
theorem isWholeLog_iff_noClash (lib : Library D) (isJSON : Bytes → Prop) (order : IterationOrder) (object : Object)
    (r : Receipt) (hlib : ReadsJSON lib isJSON) (hobject : ∀ key sent, object.lookup key = some sent → isJSON sent)
    (hkept : (JSON lib order object r).2 = .kept) :
    IsWholeLog lib r (flatten lib.unmarshalObject order object) (JSON lib order object r).1 ↔
      NoClash lib r (sentOf lib order object jsonAliases) := by
  have hpicked := picked_sentOf lib order object
  change (normaliseSent lib (sentOf lib order object jsonAliases) r).2 = .kept at hkept
  change IsWholeLog lib r _ (normaliseSent lib (sentOf lib order object jsonAliases) r).1 ↔ _
  generalize sentOf lib order object jsonAliases = s at hpicked hkept
  obtain ⟨hlog, hcut⟩ := eq_filled_of_kept hkept
  constructor
  · exact fun h => h.noClash hpicked
  · intro h
    rw [hlog]
    refine h.isWholeLog hpicked hcut fun name raw hraw => ?_
    obtain ⟨hjson, htrim, hblank⟩ := hlib.of_flatten hobject hraw
    exact ⟨hblank, htrim.symm ▸ hlib.valueOf hjson⟩

/-- A Log of one value that fills a field and one that does not. -/
def plainLog : Object := ((∅ : Object).insert (Utf8.bytes "msg") (Utf8.bytes "\"hi\"")).insert (Utf8.bytes "level")
  (Utf8.bytes "7")

/-- A Log whose reserved name is renamed to one it also has. -/
def renamedTwice : Object := ((∅ : Object).insert (Utf8.bytes "solidtrace.x") (Utf8.bytes "1")).insert
  (Utf8.bytes "original.solidtrace.x") (Utf8.bytes "2")

/-- Values as these Logs send them. -/
def IsPlain (raw : Bytes) : Prop := raw ∈ ["\"hi\"", "7", "1", "2"].map Utf8.bytes

/-- What the library does on these Logs' values. -/
theorem plain_values : (∀ raw ∈ ["\"hi\"", "7", "1", "2"].map Utf8.bytes, trimSpace raw = raw ∧
    (raw.head? = some 34 → (plainLibrary.unmarshalString raw).isSome = true)) ∧
    ∀ e ∈ plainLog.entries ++ renamedTwice.entries, e.2 ∈ ["\"hi\"", "7", "1", "2"].map Utf8.bytes := by
  decide +kernel

/-- The plain library reads JSON, of the values it knows. -/
theorem readsJSON_plainLibrary : ReadsJSON plainLibrary IsPlain where
  string raw hraw hhead := Option.isSome_iff_exists.1 ((plain_values.1 raw hraw).2 hhead)
  compact _ _ _ := ⟨_, rfl⟩
  members _ _ _ h := by cases h
  trim raw hraw := (plain_values.1 raw hraw).1.symm ▸ hraw

/-- The plain Log's values are plain. -/
theorem isPlain_plainLog {key sent : Bytes} (h : plainLog.lookup key = some sent) : IsPlain sent :=
  plain_values.2 _ (List.mem_append_left _ (AList.mem_lookup_iff.1 h))

/-- The values of the Log whose names clash are plain. -/
theorem isPlain_renamedTwice {key sent : Bytes} (h : renamedTwice.lookup key = some sent) : IsPlain sent :=
  plain_values.2 _ (List.mem_append_right _ (AList.mem_lookup_iff.1 h))

/-- A plain Log is kept whole. -/
theorem plainLog_isWholeLog : IsWholeLog plainLibrary receivedNow
    (flatten plainLibrary.unmarshalObject listedOrder plainLog)
    (JSON plainLibrary listedOrder plainLog receivedNow).1 := by
  have hempty : (sentOf plainLibrary listedOrder plainLog jsonAliases).attributes.keys = [] := by decide +kernel
  have hnone : ∀ name, name ∉ (sentOf plainLibrary listedOrder plainLog jsonAliases).attributes := by
    intro name hname
    rw [AList.mem_keys, hempty] at hname
    cases hname
  exact (isWholeLog_iff_noClash plainLibrary IsPlain listedOrder plainLog receivedNow readsJSON_plainLibrary
    (fun _ _ => isPlain_plainLog) (by decide +kernel)).2
    ⟨fun name hname => absurd hname (hnone name), fun _ _ _ _ => hnone _⟩

/-- A Log with a reserved name and that name under original is not kept whole. -/
theorem renamedTwice_not_isWholeLog : ReadsJSON plainLibrary IsPlain ∧
    (∀ key sent, renamedTwice.lookup key = some sent → IsPlain sent) ∧
    (JSON plainLibrary listedOrder renamedTwice receivedNow).2 = .kept ∧
    ¬IsWholeLog plainLibrary receivedNow (flatten plainLibrary.unmarshalObject listedOrder renamedTwice)
      (JSON plainLibrary listedOrder renamedTwice receivedNow).1 := by
  refine ⟨readsJSON_plainLibrary, fun _ _ => isPlain_renamedTwice, by decide +kernel, fun h => ?_⟩
  exact h.apart (Utf8.bytes "solidtrace.x") (Utf8.bytes "1") (Utf8.bytes "original.solidtrace.x") (Utf8.bytes "2")
    (by decide +kernel) (by decide +kernel) (by decide +kernel) (by decide +kernel)

end Kept

end SolidTrace.Normalise
