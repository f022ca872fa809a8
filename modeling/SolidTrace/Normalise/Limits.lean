import Mathlib.Data.List.Perm.Subperm
import SolidTrace.Normalise.Writes

/-!
# Within the limits

Every Log that is normalised and not dropped is within the limits: each write keeps the Attributes within
them, and so does limiting how many there are.
-/

namespace SolidTrace.Normalise

variable {D : Type}

section Cut

/-- A text that is cut is no longer than allowed. -/
theorem length_cutText_le (s : Bytes) : (cutText s).length ≤ maxStringBytes := by
  unfold cutText
  split
  next h => exact h
  · exact (List.length_take_le _ _).trans (Utf8.boundary_le _ _)

/-- Cutting a text leaves a text. -/
theorem valid_cutText {s : Bytes} (h : Utf8.Valid s) : Utf8.Valid (cutText s) := by
  unfold cutText
  split
  · exact h
  next hlong =>
    exact h.take ((Utf8.boundary_le _ _).trans_lt (Nat.lt_of_not_le hlong)) (Utf8.boundary_eq_zero_or _ _)

end Cut

section Within

variable (lib : Library D) (isSent : Bytes → Prop)

/-- A text that a JSON value holds: of a string, what it decodes to; else the value itself. -/
def IsText (raw text : Bytes) : Prop := parseString lib (trimSpace raw) = some text ∨ text = trimSpace raw

/-- A text that was sent, cut. -/
def IsCut (s : Bytes) : Prop := ∃ raw text, isSent raw ∧ IsText lib raw text ∧ s = cutText text

def IsReserved (name : Bytes) : Prop := reservedPrefix.isPrefixOf name = true

/-- What each write keeps true of the Attributes. -/
structure Within (attrs : Attributes D) : Prop where
  single : ∀ name, (attrs.values name).length ≤ 1
  named : ∀ name, attrs.values name ≠ [] → name.length ≤ maxNameBytes ∧ ¬IsReserved name
  strings : ∀ name s, .string s ∈ attrs.values name → IsCut lib isSent s

variable {lib isSent} {attrs : Attributes D}

/-- A Log without attributes is within the limits. -/
theorem within_none : Within lib isSent (.none : Attributes D) := by
  constructor <;> simp

/-- Deleting an attribute stays within the limits. -/
theorem Within.delete (h : Within lib isSent attrs) (name : Bytes) :
    Within lib isSent (deleteAttribute attrs name) := by
  constructor
  · intro other
    rw [values_delete]
    split
    · exact Nat.zero_le _
    · exact h.single other
  · intro other hother
    rw [values_delete] at hother
    split at hother
    · exact absurd rfl hother
    · exact h.named other hother
  · intro other s hs
    rw [values_delete] at hs
    split at hs
    · cases hs
    · exact h.strings other s hs

/-- A string that is stored is sent as it is or cut. -/
theorem isCut_of_valueOf {raw s : Bytes} (hraw : isSent raw) {v : Value D}
    (hv : valueOf lib (trimSpace raw) = some v) (hs : v.cut = .string s) : IsCut lib isSent s := by
  cases v with
  | string text =>
    refine ⟨raw, text, hraw, ?_, (Value.string.inj hs).symm⟩
    unfold valueOf at hv
    split at hv
    · obtain ⟨text', htext, heq⟩ := Option.map_eq_some_iff.1 hv
      exact .inl (Value.string.inj heq ▸ htext)
    · cases hv
    · cases hv
    · obtain ⟨_, -, heq⟩ := Option.map_eq_some_iff.1 hv
      cases heq
    · obtain ⟨_, -, heq⟩ := Option.map_eq_some_iff.1 hv
      cases heq
    · cases hdouble : double lib (trimSpace raw) with
      | none =>
        rw [hdouble] at hv
        exact .inr (Value.string.inj (Option.some.inj hv)).symm
      | some d =>
        rw [hdouble] at hv
        cases hv
  | number d => cases hs
  | bool b => cases hs
  | json j => cases hs

/-- Storing a value under a name that is not reserved stays within the limits. -/
theorem Within.write (h : Within lib isSent attrs) {name raw : Bytes} (hname : ¬IsReserved name)
    (hraw : isSent raw) : Within lib isSent (write lib attrs name raw) := by
  unfold Normalise.write
  split
  · exact h
  next hwritten =>
    have hlength : name.length ≤ maxNameBytes := Nat.le_of_not_lt (not_or.1 hwritten).2
    have hdelete := h.delete name
    have hfree : (deleteAttribute attrs name).values name = [] := by rw [values_delete, if_pos rfl]
    split
    next v hv =>
      constructor
      · intro other
        by_cases hother : other = name
        · rw [hother, values_put_self _ hfree]
          exact le_rfl
        · rw [values_put_ne _ hother]
          exact hdelete.single other
      · intro other hvalues
        by_cases hother : other = name
        · exact hother ▸ ⟨hlength, hname⟩
        · rw [values_put_ne _ hother] at hvalues
          exact hdelete.named other hvalues
      · intro other s hs
        by_cases hother : other = name
        · rw [hother, values_put_self _ hfree, List.mem_singleton] at hs
          exact isCut_of_valueOf hraw hv hs.symm
        · rw [values_put_ne _ hother] at hs
          exact hdelete.strings other s hs
    · exact hdelete

/-- Storing values one after another stays within the limits. -/
theorem Within.writeAll {writes : List (Bytes × Bytes)} (h : Within lib isSent attrs)
    (hwrites : ∀ w ∈ writes, ¬IsReserved w.1 ∧ isSent w.2) : Within lib isSent (writeAll lib attrs writes) := by
  induction writes generalizing attrs with
  | nil => exact h
  | cons w rest ih =>
    obtain ⟨hname, hraw⟩ := hwrites w List.mem_cons_self
    exact ih (h.write hname hraw) fun w hw => hwrites w (List.mem_cons_of_mem _ hw)

/-- No name stands twice among attributes within the limits. -/
theorem Within.nodup_names (h : Within lib isSent attrs) : attrs.names.Nodup :=
  List.nodup_iff_count_le_one.2 fun name => by
    rw [count_names]
    exact h.single name

end Within

section Limit

variable {lib : Library D} {isSent : Bytes → Prop} {attrs : Attributes D}

/-- Deleting attributes leaves the values of the others. -/
theorem values_foldl_delete (attrs : Attributes D) (dropped : List Bytes) (name : Bytes) :
    (dropped.foldl deleteAttribute attrs).values name = if name ∈ dropped then [] else attrs.values name := by
  induction dropped generalizing attrs with
  | nil => simp
  | cons first rest ih =>
    rw [List.foldl_cons, ih, values_delete]
    by_cases hrest : name ∈ rest <;> by_cases hfirst : name = first <;> simp [hrest, hfirst]

/-- Deleting attributes stays within the limits. -/
theorem Within.foldl_delete (h : Within lib isSent attrs) (dropped : List Bytes) :
    Within lib isSent (dropped.foldl deleteAttribute attrs) := by
  induction dropped generalizing attrs with
  | nil => exact h
  | cons first rest ih => exact ih (h.delete first)

/-- The Attributes that are kept, of those there are. -/
def limited (attrs : Attributes D) : Attributes D :=
  if attrs.names.length ≤ maxAttributes then attrs
  else ((attrs.names.insertionSort (· ≤ ·)).drop maxAttributes).foldl deleteAttribute attrs

/-- Limiting attributes changes nothing else of the Log. -/
theorem Normaliser.limitAttributes_eq (n : Normaliser D) : n.limitAttributes =
    ⟨{ n.log with attributes := limited n.log.attributes },
      n.truncated || decide (maxAttributes < n.log.attributes.names.length)⟩ := by
  have hcount : n.log.attributes.string.keys.length + n.log.attributes.number.keys.length +
      n.log.attributes.bool.keys.length + n.log.attributes.json.keys.length = n.log.attributes.names.length := by
    simp only [Attributes.names, List.length_append]
  unfold Normaliser.limitAttributes limited
  dsimp only
  rw [hcount]
  by_cases h : n.log.attributes.names.length ≤ maxAttributes
  · simp [h, Nat.not_lt.2 h]
  · simp [h, Nat.lt_of_not_le h, Normaliser.withAttributes]

/-- Attributes stay within the limits when their number is limited. -/
theorem Within.limited (h : Within lib isSent attrs) : Within lib isSent (limited attrs) := by
  unfold Normalise.limited
  split
  · exact h
  · exact h.foldl_delete _

/-- Attributes that were limited are no more than allowed. -/
theorem Within.length_names_limited (h : Within lib isSent attrs) :
    (Normalise.limited attrs).names.length ≤ maxAttributes := by
  have hnodup := h.limited.nodup_names
  unfold Normalise.limited at hnodup ⊢
  split
  next hfew => exact hfew
  next hmany =>
    rw [if_neg hmany] at hnodup
    set sorted := attrs.names.insertionSort (· ≤ ·)
    have hsubset : ((sorted.drop maxAttributes).foldl deleteAttribute attrs).names ⊆ sorted.take maxAttributes := by
      intro name hname
      rw [mem_names_iff, values_foldl_delete] at hname
      split at hname
      · exact absurd rfl hname
      next hkept =>
        have hsorted : name ∈ sorted := (List.mem_insertionSort _).2 ((mem_names_iff _ _).2 hname)
        rw [← List.take_append_drop maxAttributes sorted, List.mem_append] at hsorted
        exact hsorted.resolve_right hkept
    exact (List.subperm_of_subset hnodup hsubset).length_le.trans (List.length_take_le _ _)

end Limit

section Sent

variable {lib : Library D} {s : Sent} {r : Receipt}

/-- Whether a JSON value was sent. -/
def Sent.Holds (s : Sent) (raw : Bytes) : Prop :=
  (∃ name, s.attributes.lookup name = some raw) ∨ ∃ f, s.fields f = some raw

/-- The reserved prefix and the name that replaces it start with different letters. -/
theorem known_names : (reservedPrefix = 115 :: reservedPrefix.tail ∧ original = 111 :: original.tail) ∧
    truncatedAttribute.length ≤ maxNameBytes := by
  decide +kernel

/-- A name put under original is not reserved. -/
theorem not_isReserved_original (name : Bytes) : ¬IsReserved (original ++ name) := by
  obtain ⟨hreserved, horiginal⟩ := known_names.1
  rw [IsReserved, hreserved, horiginal]
  exact Bool.false_ne_true

/-- A name that is stored is not reserved. -/
theorem not_isReserved_unreserved (name : Bytes) : ¬IsReserved (unreserved name) := by
  unfold unreserved
  split
  · exact not_isReserved_original name
  next h => exact h

/-- An attribute of its own is stored under its name, or renamed if that is reserved. -/
theorem mem_ownWrites {attributes : Object} {w : Bytes × Bytes} (h : w ∈ ownWrites attributes) :
    ∃ name, attributes.lookup name = some w.2 ∧ w.1 = unreserved name := by
  obtain ⟨name, -, hw⟩ := List.mem_filterMap.1 h
  obtain ⟨raw, hraw, rfl⟩ := Option.map_eq_some_iff.1 hw
  exact ⟨name, hraw, rfl⟩

/-- A field that could not be filled is kept under original. -/
theorem mem_unfilled {f : Field} {canFill : Bytes → Bool} {w : Bytes × Bytes} (h : w ∈ unfilled s f canFill) :
    s.fields f = some w.2 ∧ canFill w.2 = false ∧ w.1 = original ++ names f := by
  unfold unfilled at h
  cases hraw : s.fields f with
  | none =>
    rw [hraw] at h
    cases h
  | some raw =>
    rw [hraw] at h
    dsimp only at h
    split at h
    · cases h
    next hfills =>
      obtain rfl := List.mem_singleton.1 h
      exact ⟨rfl, Bool.eq_false_iff.2 hfills, rfl⟩

/-- What is stored has a name that is not reserved and a value that was sent. -/
theorem of_mem_writesOf {w : Bytes × Bytes} (h : w ∈ writesOf lib s r) : ¬IsReserved w.1 ∧ s.Holds w.2 := by
  rcases List.mem_append.1 h with h | h
  · obtain ⟨name, hraw, hname⟩ := mem_ownWrites h
    exact ⟨hname ▸ not_isReserved_unreserved name, .inl ⟨name, hraw⟩⟩
  · obtain ⟨f, -, h⟩ := List.mem_flatMap.1 h
    obtain ⟨hraw, -, hname⟩ := mem_unfilled h
    exact ⟨hname ▸ not_isReserved_original _, .inr ⟨f, hraw⟩⟩

/-- The attributes of a Log that is filled are within the limits. -/
theorem within_filled (lib : Library D) (s : Sent) (r : Receipt) :
    Within lib s.Holds (filled lib s r).attributes :=
  within_none.writeAll fun _ => of_mem_writesOf

end Sent

section Fields

variable {lib : Library D} {s : Sent} {r : Receipt}

/-- A built-in field that is text. -/
def Log.text (log : Log D) : Field → Bytes
  | .level => log.level
  | .message => log.message
  | .service => log.service
  | .environment => log.environment
  | .traceID => log.traceID
  | .spanID => log.spanID
  | .timeField => []

/-- The Levels. -/
def levelNames : List Bytes := ["trace", "debug", "info", "warn", "error", "fatal"].map Utf8.bytes

/-- A level that is read is one of the names, all of them short. -/
theorem known_levels : (∀ level ∈ levels.map Prod.snd, level ∈ levelNames) ∧
    ∀ level ∈ levelNames, level.length ≤ maxStringBytes := by
  decide +kernel

/-- A text field holds the text that was sent for it, cut. -/
theorem text_filled {f : Field} (hf : f ∈ textFields) : (filled lib s r).text f = cutText (textOf lib s f) := by
  cases f <;> first | rfl | simp [textFields] at hf

/-- A text field is empty or the text read of what was sent. -/
theorem textOf_eq_nil_or (f : Field) :
    textOf lib s f = [] ∨ ∃ raw, s.fields f = some raw ∧ parseField lib f raw = some (textOf lib s f) := by
  unfold textOf fieldValue
  cases hraw : s.fields f with
  | none => exact .inl rfl
  | some raw =>
    dsimp only [Option.bind_some]
    obtain hparse | ⟨text, hparse⟩ := Option.eq_none_or_eq_some (parseField lib f raw)
    · exact .inl (by rw [hparse]; rfl)
    · exact .inr ⟨raw, rfl, by rw [hparse]; rfl⟩

/-- A short text is not cut. -/
theorem cutText_of_le {text : Bytes} (h : text.length ≤ maxStringBytes) : cutText text = text := if_pos h

/-- A level that is read is one of the names. -/
theorem mem_levelNames_of_parseLevel {raw level : Bytes} (h : parseLevel lib raw = some level) :
    level ∈ levelNames := by
  unfold parseLevel at h
  split at h
  · obtain ⟨before, after, hlevels, -⟩ := List.lookup_eq_some_iff.1 h
    have hmem : level ∈ levels.map Prod.snd := by
      rw [hlevels]
      simp
    exact known_levels.1 level hmem
  · cases h

/-- A hex digit in lower case is a hex digit, and ASCII. -/
theorem hexDigit_byte {b : UInt8} (h : isHexDigit b = true) : isHexDigit (lowerByte b) = true ∧ b < 128 := by
  have hall : ∀ n < 256, isHexDigit (UInt8.ofNat n) = true →
      isHexDigit (lowerByte (UInt8.ofNat n)) = true ∧ UInt8.ofNat n < 128 := by
    decide +kernel
  have hb := hall b.toNat b.toNat_lt
  rw [UInt8.ofNat_toNat] at hb
  exact hb h

/-- An id is as many hex digits as it should be. -/
theorem hexDigits_of_hexID {digits : ℕ} {raw id : Bytes} (h : hexID lib digits raw = some id) :
    id.length = digits ∧ ∀ b ∈ id, isHexDigit b = true := by
  unfold hexID at h
  split at h
  next text htext =>
    split at h
    · cases h
    next hlength =>
      split at h
      next hhex =>
        obtain rfl := Option.some.inj h
        have hall : ∀ b ∈ text, isHexDigit b = true := List.all_eq_true.1 (of_decide_eq_true hhex).2
        have hascii : isASCII text = true :=
          List.all_eq_true.2 fun b hb => decide_eq_true ((hexDigit_byte (hall b hb)).2)
        rw [toLower, if_pos hascii]
        refine ⟨(List.length_map _).trans (not_not.1 hlength), fun b hb => ?_⟩
        obtain ⟨b, hmem, rfl⟩ := List.mem_map.1 hb
        exact (hexDigit_byte (hall b hmem)).1
      · cases h
  · cases h

/-- A Log's time is the receipt's, or in its window. -/
theorem timeOf_eq_or (lib : Library D) (s : Sent) (r : Receipt) :
    timeOf lib s r = r.at' ∨ r.inWindow (timeOf lib s r) = true := by
  unfold timeOf
  obtain hnone | ⟨t, ht⟩ := Option.eq_none_or_eq_some (((s.fields .timeField).bind (parseTime lib)).filter r.inWindow)
  · exact .inl (by rw [hnone]; rfl)
  · rw [ht]
    exact .inr (Option.filter_eq_some_iff.1 ht).2

end Fields

section Outcome

variable (lib : Library D) (r : Receipt) (isSent : Bytes → Prop)

/-- A text cut to the limit: still a text when it was one. -/
structure CutTo (text cut : Bytes) : Prop where
  bytes : cut.length ≤ maxStringBytes
  eq : cut = cutText text
  valid : Utf8.Valid text → Utf8.Valid cut

/-- A Log within the limits; `truncated` says whether it was cut. -/
structure WithinLimits (log : Log D) (truncated : Bool) : Prop where
  oneMap : ∀ name ∈ log.attributes.names, (log.attributes.values name).length = 1
  nameBytes : ∀ name ∈ log.attributes.names, name.length ≤ maxNameBytes
  strings : ∀ name s, log.attributes.string.lookup name = some s →
    ∃ raw text, isSent raw ∧ IsText lib raw text ∧ CutTo text s
  texts : ∀ f ∈ textFields, log.text f = [] ∨
    ∃ raw text, isSent raw ∧ parseField lib f raw = some text ∧ CutTo text (log.text f)
  count : (log.attributes.names.filter fun name => name ≠ truncatedAttribute).length ≤ maxAttributes
  /-- The size is that of the Log without its mark. -/
  size : size { log with attributes := deleteAttribute log.attributes truncatedAttribute } ≤ maxLogBytes
  time : log.time = r.at' ∨ r.inWindow log.time = true
  level : log.level = [] ∨ log.level ∈ levelNames
  traceID : log.traceID = [] ∨ log.traceID.length = 32 ∧ ∀ b ∈ log.traceID, isHexDigit b = true
  spanID : log.spanID = [] ∨ log.spanID.length = 16 ∧ ∀ b ∈ log.spanID, isHexDigit b = true
  mark : log.attributes.bool.lookup truncatedAttribute = some true ↔ truncated = true
  reserved : ∀ name ∈ log.attributes.names, IsReserved name → name = truncatedAttribute ∧ truncated = true

/-- What normalising gives is within the limits, or dropped. -/
def Limited (result : Log D × Outcome) : Prop :=
  result.2 ≠ .dropped → WithinLimits lib r isSent result.1 (result.2 = .truncated)

variable {lib r isSent} {log : Log D}

/-- Erasing a name that is not there changes nothing. -/
theorem erase_eq_self {V : Type} {m : AList fun _ : Bytes => V} {name : Bytes} (h : name ∉ m) : m.erase name = m :=
  AList.ext (List.kerase_of_notMem_keys h)

/-- Inserting a new name and erasing it again changes nothing. -/
theorem erase_insert {V : Type} {m : AList fun _ : Bytes => V} {name : Bytes} (h : name ∉ m) (v : V) :
    (m.insert name v).erase name = m := by
  rw [AList.insert_of_notMem h]
  exact AList.ext (List.kerase_cons_eq rfl)

/-- A name without values is in none of the maps. -/
theorem notMem_of_values_eq_nil {attrs : Attributes D} {name : Bytes} (h : attrs.values name = []) :
    name ∉ attrs.string ∧ name ∉ attrs.number ∧ name ∉ attrs.bool ∧ name ∉ attrs.json := by
  simp only [Attributes.values, List.append_eq_nil_iff, List.map_eq_nil_iff, Option.toList_eq_nil_iff,
    AList.lookup_eq_none] at h
  exact ⟨h.1.1.1, h.1.1.2, h.1.2, h.2⟩

/-- Deleting a name without values changes nothing. -/
theorem deleteAttribute_eq_self {attrs : Attributes D} {name : Bytes} (h : attrs.values name = []) :
    deleteAttribute attrs name = attrs := by
  obtain ⟨hstring, hnumber, hbool, hjson⟩ := notMem_of_values_eq_nil h
  rw [deleteAttribute, erase_eq_self hstring, erase_eq_self hnumber, erase_eq_self hbool, erase_eq_self hjson]

/-- A Log with the mark of one that a limit cut. -/
def Log.marked (log : Log D) : Log D :=
  { log with attributes := log.attributes.put truncatedAttribute (.bool true) }

/-- The mark of a cut Log has a reserved name, so no sender's attribute has it. -/
theorem isReserved_truncatedAttribute : IsReserved truncatedAttribute :=
  List.isPrefixOf_iff_prefix.2 (List.prefix_append _ _)

/-- Marking a Log within the limits leaves it within them. -/
theorem WithinLimits.marked (h : WithinLimits lib r isSent log false) : WithinLimits lib r isSent log.marked true := by
  have hfree : log.attributes.values truncatedAttribute = [] := by
    by_contra hne
    exact Bool.false_ne_true (h.reserved _ ((mem_names_iff _ _).2 hne) isReserved_truncatedAttribute).2
  obtain ⟨hstring, hnumber, hbool, hjson⟩ := notMem_of_values_eq_nil hfree
  have hother : ∀ name ≠ truncatedAttribute, log.marked.attributes.values name = log.attributes.values name :=
    fun name hname => values_put_ne _ hname _
  have hself : log.marked.attributes.values truncatedAttribute = [.bool true] := values_put_self _ hfree _
  have hnames : ∀ name ∈ log.marked.attributes.names, name ≠ truncatedAttribute → name ∈ log.attributes.names := by
    intro name hname hne
    rw [mem_names_iff, hother name hne] at hname
    exact (mem_names_iff _ _).2 hname
  refine ⟨fun name hname => ?_, fun name hname => ?_, h.strings, h.texts, ?_, ?_, h.time, h.level, h.traceID, h.spanID,
    ⟨fun _ => rfl, fun _ => AList.lookup_insert _⟩, fun name hname hreserved => ?_⟩
  · by_cases hmark : name = truncatedAttribute
    · rw [hmark, hself]
      rfl
    · rw [hother name hmark]
      exact h.oneMap name (hnames name hname hmark)
  · by_cases hmark : name = truncatedAttribute
    · rw [hmark]
      exact known_names.2
    · exact h.nameBytes name (hnames name hname hmark)
  · have hkeys : (log.attributes.bool.insert truncatedAttribute true).keys =
        truncatedAttribute :: log.attributes.bool.keys := by
      rw [AList.insert_of_notMem hbool]
      rfl
    have hfilter : log.marked.attributes.names.filter (fun name => name ≠ truncatedAttribute) =
        log.attributes.names.filter fun name => name ≠ truncatedAttribute := by
      simp only [Log.marked, Attributes.put, Attributes.names, hkeys, List.filter_append]
      rw [List.filter_cons_of_neg (by simp)]
    rw [hfilter]
    exact h.count
  · have hsame : deleteAttribute log.marked.attributes truncatedAttribute =
        deleteAttribute log.attributes truncatedAttribute := by
      rw [deleteAttribute_eq_self hfree]
      simp only [Log.marked, Attributes.put, deleteAttribute, erase_eq_self hstring, erase_eq_self hnumber,
        erase_eq_self hjson, erase_insert hbool]
    change Normalise.size { log with attributes := deleteAttribute log.marked.attributes truncatedAttribute } ≤ _
    rw [hsame]
    exact h.size
  · by_cases hmark : name = truncatedAttribute
    · exact ⟨hmark, rfl⟩
    · exact absurd (h.reserved name (hnames name hname hmark) hreserved).2 Bool.false_ne_true

end Outcome

section Limited

variable (lib : Library D) (s : Sent) (r : Receipt)

/-- A Log of the fields that were sent. -/
def withAttributes (attrs : Attributes D) : Log D := { filled lib s r with attributes := attrs }

/-- A text that is cut is cut to the limit. -/
theorem cutTo_cutText (text : Bytes) : CutTo text (cutText text) :=
  ⟨length_cutText_le text, rfl, valid_cutText⟩

/-- The text fields are as they were when the attributes change. -/
theorem text_withAttributes (attrs : Attributes D) {f : Field} (hf : f ∈ textFields) :
    (withAttributes lib s r attrs).text f = cutText (textOf lib s f) := by
  rw [← @text_filled D lib s r f hf]
  cases f <;> rfl

/-- The text of a field that has one was read of what was sent for it. -/
theorem text_eq_nil_or (attrs : Attributes D) {f : Field} (hf : f ∈ textFields) :
    (withAttributes lib s r attrs).text f = [] ∨
      ∃ raw text, s.fields f = some raw ∧ parseField lib f raw = some text ∧
        (withAttributes lib s r attrs).text f = cutText text := by
  rw [text_withAttributes lib s r attrs hf]
  rcases textOf_eq_nil_or f with hnil | ⟨raw, hraw, hparse⟩
  · exact .inl (by rw [hnil, cutText_of_le (Nat.zero_le _)])
  · exact .inr ⟨raw, _, hraw, hparse, rfl⟩

/-- Attributes within the limits make a Log within them, when it is small enough. -/
theorem Within.withinLimits {attrs : Attributes D} (h : Within lib s.Holds attrs)
    (hcount : attrs.names.length ≤ maxAttributes) (hsize : size (withAttributes lib s r attrs) ≤ maxLogBytes) :
    WithinLimits lib r s.Holds (withAttributes lib s r attrs) false := by
  have hvalues : ∀ name ∈ attrs.names, attrs.values name ≠ [] := fun name hname => (mem_names_iff _ _).1 hname
  have hunmarked : attrs.values truncatedAttribute = [] := by
    by_contra hne
    exact (h.named _ hne).2 isReserved_truncatedAttribute
  have hlevel := text_eq_nil_or lib s r attrs (show Field.level ∈ textFields by simp [textFields])
  have htraceID := text_eq_nil_or lib s r attrs (show Field.traceID ∈ textFields by simp [textFields])
  have hspanID := text_eq_nil_or lib s r attrs (show Field.spanID ∈ textFields by simp [textFields])
  refine ⟨fun name hname => ?_, fun name hname => (h.named name (hvalues name hname)).1, ?_, ?_, ?_, ?_,
    timeOf_eq_or lib s r, ?_, ?_, ?_, ?_, fun name hname hreserved => ?_⟩
  · exact le_antisymm (h.single name) (List.length_pos_iff.2 (hvalues name hname))
  · intro name text htext
    have hmem : Value.string text ∈ attrs.values name := by
      have hlookup : attrs.string.lookup name = some text := htext
      simp [Attributes.values, hlookup]
    obtain ⟨raw, sentText, hraw, hsentText, rfl⟩ := h.strings name text hmem
    exact ⟨raw, sentText, hraw, hsentText, cutTo_cutText sentText⟩
  · intro f hf
    rcases text_eq_nil_or lib s r attrs hf with hnil | ⟨raw, text, hraw, hparse, htext⟩
    · exact .inl hnil
    · rw [htext]
      exact .inr ⟨raw, text, .inr ⟨f, hraw⟩, hparse, cutTo_cutText _⟩
  · exact (List.length_filter_le _ _).trans hcount
  · change size { withAttributes lib s r attrs with
      attributes := deleteAttribute attrs truncatedAttribute } ≤ maxLogBytes
    rw [deleteAttribute_eq_self hunmarked]
    exact hsize
  · rcases hlevel with hnil | ⟨raw, text, -, hparse, htext⟩
    · exact .inl hnil
    · have hmem := mem_levelNames_of_parseLevel hparse
      rw [cutText_of_le (known_levels.2 _ hmem)] at htext
      change (withAttributes lib s r attrs).level = text at htext
      rw [htext]
      exact .inr hmem
  · rcases htraceID with hnil | ⟨raw, text, -, hparse, htext⟩
    · exact .inl hnil
    · have hdigits := hexDigits_of_hexID hparse
      rw [cutText_of_le (by rw [hdigits.1]; decide)] at htext
      change (withAttributes lib s r attrs).traceID = text at htext
      rw [htext]
      exact .inr hdigits
  · rcases hspanID with hnil | ⟨raw, text, -, hparse, htext⟩
    · exact .inl hnil
    · have hdigits := hexDigits_of_hexID hparse
      rw [cutText_of_le (by rw [hdigits.1]; decide)] at htext
      change (withAttributes lib s r attrs).spanID = text at htext
      rw [htext]
      exact .inr hdigits
  · have hlookup : attrs.bool.lookup truncatedAttribute = none :=
      AList.lookup_eq_none.2 (notMem_of_values_eq_nil hunmarked).2.2.1
    change attrs.bool.lookup truncatedAttribute = some true ↔ false = true
    rw [hlookup]
    simp
  · exact absurd hreserved (h.named name (hvalues name hname)).2

variable {lib s r}

/-- What is said of the values that were sent can be said of more. -/
theorem WithinLimits.mono {isSent isSent' : Bytes → Prop} {log : Log D} {truncated : Bool}
    (h : WithinLimits lib r isSent log truncated) (hsent : ∀ raw, isSent raw → isSent' raw) :
    WithinLimits lib r isSent' log truncated :=
  { h with
    strings := fun name s hs =>
      let ⟨raw, text, hraw, htext⟩ := h.strings name s hs
      ⟨raw, text, hsent raw hraw, htext⟩
    texts := fun f hf => (h.texts f hf).imp id fun ⟨raw, text, hraw, htext⟩ => ⟨raw, text, hsent raw hraw, htext⟩ }

/-- What is normalised of what was sent is within the limits. -/
theorem normaliseSent_limited : Limited lib r s.Holds (normaliseSent lib s r) := by
  have hn : normaliserOf lib s r = ⟨withAttributes lib s r (limited (filled lib s r).attributes),
      isCut lib s r || decide (maxAttributes < (filled lib s r).attributes.names.length)⟩ := by
    rw [normaliserOf_eq, Normaliser.limitAttributes_eq]
    rfl
  have hwithin := (within_filled lib s r).limited
  have hcount := (within_filled lib s r).length_names_limited
  generalize limited (filled lib s r).attributes = attrs at hn hwithin hcount
  unfold Limited normaliseSent
  rw [hn]
  dsimp only
  split
  · exact fun h => absurd rfl h
  next hsize =>
    have hlog := Within.withinLimits lib s r hwithin hcount (Nat.le_of_not_lt hsize)
    split
    · exact fun _ => hlog.marked
    · exact fun _ => hlog

/-- The values of an object, under flat names. -/
def IsValueOf (lib : Library D) (order : IterationOrder) (object : Object) (raw : Bytes) : Prop :=
  ∃ name, (flatten lib.unmarshalObject order object).lookup name = some raw

/-- A field that is picked is one that was sent. -/
theorem holds_pick {aliases : Field → List Bytes} {s : Sent} {f : Field} {raw : Bytes}
    (h : (s.pick aliases f).Holds raw) : s.Holds raw := by
  unfold Sent.pick at h
  split at h
  next name hname =>
    rcases h with ⟨other, hother⟩ | ⟨g, hg⟩
    · by_cases hsame : other = name
      · rw [hsame, AList.lookup_erase] at hother
        cases hother
      · rw [AList.lookup_erase_ne hsame] at hother
        exact .inl ⟨other, hother⟩
    · change Function.update s.fields f (s.attributes.lookup name) g = some raw at hg
      by_cases hsame : g = f
      · subst hsame
        rw [Function.update_self] at hg
        exact .inl ⟨name, hg⟩
      · rw [Function.update_of_ne hsame] at hg
        exact .inr ⟨g, hg⟩
  · exact h

/-- What the aliases pick of an object is one of its values. -/
theorem holds_sentOf {order : IterationOrder} {object : Object} {aliases : Field → List Bytes} {raw : Bytes}
    (h : (sentOf lib order object aliases).Holds raw) : IsValueOf lib order object raw := by
  have hall : ∀ (fields : List Field) (s : Sent), (fields.foldl (Sent.pick aliases) s).Holds raw → s.Holds raw := by
    intro fields
    induction fields with
    | nil => exact fun s h => h
    | cons f rest ih => exact fun s h => holds_pick (ih _ h)
  rcases hall _ _ h with hname | ⟨f, hf⟩
  · exact hname
  · cases hf

/-- A Log made of an object is limited by the object's values. -/
theorem normaliseObject_limited (lib : Library D) (order : IterationOrder) (object : Object)
    (aliases : Field → List Bytes) (r : Receipt) :
    Limited lib r (IsValueOf lib order object) (normaliseObject lib order object aliases r) :=
  fun h => (normaliseSent_limited h).mono fun _ => holds_sentOf

/-- Every Log that is normalised and not dropped is within the limits, a sender's and a Log transform's. -/
theorem normalised_withinLimits (lib : Library D) (order : IterationOrder) (r : Receipt) :
    (∀ object, Limited lib r (IsValueOf lib order object) (JSON lib order object r)) ∧
    ∀ {V E : Type} (marshal : V → Except E Bytes) (object : List (Bytes × V)) (result : Log D × Outcome),
      Transformed lib marshal order object r = .ok result →
        ∃ raw, marshalAll marshal object = .ok raw ∧ Limited lib r (IsValueOf lib order raw) result := by
  refine ⟨fun object => normaliseObject_limited lib order object jsonAliases r,
    fun marshal object result h => ?_⟩
  unfold Transformed at h
  cases hraw : marshalAll marshal object with
  | error err =>
    rw [hraw] at h
    cases h
  | ok raw =>
    rw [hraw] at h
    obtain rfl := Except.ok.inj h
    exact ⟨raw, rfl, normaliseObject_limited lib order raw ownNames r⟩

end Limited

section Sample

/-- Go's standard library on texts of plain characters and whole numbers. -/
def plainLibrary : Library ℚ where
  unmarshalObject _ := none
  unmarshalString raw :=
    if raw.head? = some 34 ∧ raw.getLast? = some 34 ∧ 2 ≤ raw.length then some raw.tail.dropLast else none
  compact raw := some raw
  unicodeLower text := text
  unicodeUpper text := text
  parseLayout _ _ := none
  parseFloat number := (parseDigits number).map fun n => (n : ℚ)
  wholeFloat number := (parseDigits number).map fun n => (n : ℚ)
  float64 d := d
  mul d n := d * n

/-- The order in which a map's entries are listed. -/
def listedOrder : IterationOrder := ⟨fun _ _ object => object.entries, fun _ _ _ => List.Perm.refl _⟩

def receivedNow : Receipt := ⟨1792584000 * second, 30⟩

/-- A Log with a name too long, and one that is reserved. -/
def longName : Object :=
  (((∅ : Object).insert (Utf8.bytes "msg") (Utf8.bytes "\"hi\"")).insert (Utf8.bytes "level")
    (Utf8.bytes "\"WARN\"")).insert (List.replicate 300 97) (Utf8.bytes "1") |>.insert
      (Utf8.bytes "solidtrace.x") (Utf8.bytes "true")

/-- A Log with a long name is cut, and within the limits. -/
theorem longName_withinLimits :
    (JSON plainLibrary listedOrder longName receivedNow).2 = .truncated ∧
    (JSON plainLibrary listedOrder longName receivedNow).1.level = Utf8.bytes "warn" ∧
    WithinLimits plainLibrary receivedNow (IsValueOf plainLibrary listedOrder longName)
      (JSON plainLibrary listedOrder longName receivedNow).1 true ∧
    ∃ result raw, Transformed plainLibrary (fun v : Bytes => (.ok v : Except Unit Bytes)) listedOrder
        [(Utf8.bytes "n", Utf8.bytes "7")] receivedNow = .ok result ∧
      Limited plainLibrary receivedNow (IsValueOf plainLibrary listedOrder raw) result := by
  have htruncated : (JSON plainLibrary listedOrder longName receivedNow).2 = .truncated := by decide +kernel
  have hlimited := (normalised_withinLimits plainLibrary listedOrder receivedNow).1 longName
    (by rw [htruncated]; decide)
  rw [htruncated] at hlimited
  obtain ⟨raw, -, hresult⟩ := (normalised_withinLimits plainLibrary listedOrder receivedNow).2
    (fun v : Bytes => (.ok v : Except Unit Bytes)) [(Utf8.bytes "n", Utf8.bytes "7")] _ rfl
  exact ⟨htruncated, by decide +kernel, hlimited, _, raw, rfl, hresult⟩

end Sample

end SolidTrace.Normalise
