import Mathlib.Algebra.Order.Ring.Rat
import Mathlib.Data.List.Basic

/-!
# Envelopes

`readEnvelope` walks the items of an envelope: each is a line of headers and a payload, which the
headers' length counts or the next newline ends. Every index and slice is checked as Go checks it, with a
fault of its own that no input reaches. What Go's standard library decides is a parameter.
-/

namespace SolidTrace.Ingest

abbrev Bytes := List UInt8

/-- The byte `\n`. -/
def newline : UInt8 := 10

/-- The byte `"`. -/
def quote : UInt8 := 34

/-- The errors of an envelope, and what Go panics with. -/
inductive EnvelopeError where
  | invalidEnvelope
  | invalidItemHeader
  | outOfRange
deriving DecidableEq, Repr

/-- What an item's headers say of it. -/
structure ItemHeader where
  type : String
  length : Option ℤ
deriving DecidableEq

/-- What Go's standard library decides: how JSON and numbers are read. -/
structure EnvelopeLibrary where
  unmarshalHeaders : Bytes → Option (List (String × Bytes))
  unmarshalItemHeader : Bytes → Option ItemHeader
  /-- The `sample_rate` of a dynamic sampling context, empty when it has none. -/
  unmarshalSampleRate : Bytes → Option Bytes
  /-- A finite number. -/
  parseFloat : Bytes → Option ℚ

/-- The payloads of the items of an envelope that ingest reads. -/
structure EnvelopeItems where
  hasEvent : Bool
  event : Bytes
  logs : List Bytes
  transactions : List Bytes
  sampleRate : ℚ
deriving DecidableEq

section Slices

/-- `bytes[i]` -/
def byteAt (bytes : Bytes) (i : ℕ) : Except EnvelopeError UInt8 :=
  match bytes[i]? with
  | some b => .ok b
  | none => .error .outOfRange

/-- `bytes[n:]` -/
def sliceFrom (bytes : Bytes) (n : ℤ) : Except EnvelopeError Bytes :=
  if 0 ≤ n ∧ n ≤ bytes.length then .ok (bytes.drop n.toNat) else .error .outOfRange

/-- `bytes[:n]` -/
def sliceTo (bytes : Bytes) (n : ℤ) : Except EnvelopeError Bytes :=
  if 0 ≤ n ∧ n ≤ bytes.length then .ok (bytes.take n.toNat) else .error .outOfRange

/-- The bytes before and after the first newline; all of them and none when there is none. -/
def cut (bytes : Bytes) : Bytes × Bytes :=
  (bytes.takeWhile (· ≠ newline), (bytes.dropWhile (· ≠ newline)).tail)

/-- The bytes without the `b`s at both ends. -/
def trim (bytes : Bytes) (b : UInt8) : Bytes :=
  ((bytes.dropWhile (· = b)).reverse.dropWhile (· = b)).reverse

end Slices

section Reader

variable (lib : EnvelopeLibrary)

/-- The sample rate of an envelope's header; one that is missing, unreadable or outside (0, 1] is 1. -/
def sampleRateOf (header : List (String × Bytes)) : ℚ :=
  match header.lookup "trace" >>= lib.unmarshalSampleRate with
  | none => 1
  | some raw =>
    match lib.parseFloat (trim raw quote) with
    | none => 1
    | some rate => if 0 < rate ∧ rate ≤ 1 then rate else 1

/-- What follows the newline after a counted payload: nothing when the envelope ends with it. -/
def afterNewline (after : Bytes) : Except EnvelopeError Bytes :=
  if after.length > 0 then do
    if (← byteAt after 0) ≠ newline then .error .invalidEnvelope else sliceFrom after 1
  else .ok after

/-- An item's payload, and what follows it and its newline. -/
def readPayload (header : ItemHeader) (after : Bytes) : Except EnvelopeError (Bytes × Bytes) :=
  match header.length with
  | some length =>
    if length < 0 ∨ length > after.length then .error .invalidEnvelope
    else do
      let payload ← sliceTo after length
      let after ← sliceFrom after length
      return (payload, ← afterNewline after)
  | none => .ok (cut after)

/-- One turn of the loop over what is left of an envelope: the type and payload of an item, or nothing for
an empty line, and what follows. -/
def nextItem (rest : Bytes) : Except EnvelopeError (Option (String × Bytes) × Bytes) := do
  if (← byteAt rest 0) = newline then return (none, ← sliceFrom rest 1)
  else
    let (line, after) := cut rest
    match lib.unmarshalItemHeader line with
    | none => .error .invalidItemHeader
    | some header =>
      if header.type = "" then .error .invalidItemHeader
      else
        let (payload, after) ← readPayload header after
        return (some (header.type, payload), after)

/-- Keep an item's payload: of events, the first one's. -/
def EnvelopeItems.keep (items : EnvelopeItems) (type : String) (payload : Bytes) : EnvelopeItems :=
  if type = "event" ∧ items.hasEvent = false then { items with hasEvent := true, event := payload }
  else if type = "log" then { items with logs := items.logs ++ [payload] }
  else if type = "transaction" then { items with transactions := items.transactions ++ [payload] }
  else items

end Reader

section Advances

variable {lib : EnvelopeLibrary}

/-- What follows a line is shorter than the text. -/
theorem length_cut (bytes : Bytes) : (cut bytes).2.length ≤ bytes.length - 1 := by
  rw [cut, List.length_tail]
  exact Nat.sub_le_sub_right (List.dropWhile_sublist _).length_le 1

/-- The first byte of a text. -/
@[simp]
theorem byteAt_cons (b : UInt8) (rest : Bytes) : byteAt (b :: rest) 0 = .ok b := rfl

/-- The text after its first byte. -/
@[simp]
theorem sliceFrom_cons (b : UInt8) (rest : Bytes) : sliceFrom (b :: rest) 1 = .ok rest := by
  rw [sliceFrom, if_pos ⟨Int.one_nonneg, by rw [List.length_cons]; omega⟩]
  rfl

/-- A slice from a place in the text is what follows it. -/
theorem sliceFrom_natCast {bytes : Bytes} {n : ℕ} (h : n ≤ bytes.length) :
    sliceFrom bytes n = .ok (bytes.drop n) := by
  rw [sliceFrom, if_pos (by omega), Int.toNat_natCast]

/-- A slice to a place in the text is what comes before it. -/
theorem sliceTo_natCast {bytes : Bytes} {n : ℕ} (h : n ≤ bytes.length) :
    sliceTo bytes n = .ok (bytes.take n) := by
  rw [sliceTo, if_pos (by omega), Int.toNat_natCast]

/-- A payload may end the envelope. -/
@[simp]
theorem afterNewline_nil : afterNewline [] = .ok [] := rfl

/-- A payload is followed by a newline. -/
theorem afterNewline_cons (b : UInt8) (rest : Bytes) :
    afterNewline (b :: rest) = if b ≠ newline then .error .invalidEnvelope else .ok rest := by
  rw [afterNewline, if_pos (List.length_pos_of_ne_nil (List.cons_ne_nil _ _)), byteAt_cons, sliceFrom_cons]
  rfl

/-- A payload of a given length is its bytes, and a newline or the end comes after. -/
theorem readPayload_counted {header : ItemHeader} {after : Bytes} {n : ℕ} (hlength : header.length = some (n : ℤ))
    (hn : n ≤ after.length) :
    readPayload header after = (afterNewline (after.drop n)).map (after.take n, ·) := by
  rw [readPayload, hlength]
  change (if (n : ℤ) < 0 ∨ (n : ℤ) > after.length then _ else _) = _
  rw [if_neg (by omega), sliceTo_natCast hn, sliceFrom_natCast hn]
  change (do return (after.take n, ← afterNewline (after.drop n)) : Except EnvelopeError (Bytes × Bytes)) = _
  cases afterNewline (after.drop n) <;> rfl

/-- A payload is read within what follows its headers, or the envelope is invalid. -/
theorem readPayload_advances (header : ItemHeader) (after : Bytes) :
    (∃ payload rest, readPayload header after = .ok (payload, rest) ∧ rest.length ≤ after.length) ∨
      readPayload header after = .error .invalidEnvelope := by
  cases hlength : header.length with
  | none =>
    have hread : readPayload header after = .ok (cut after) := by rw [readPayload, hlength]
    exact .inl ⟨_, _, hread, (length_cut after).trans (Nat.sub_le _ _)⟩
  | some length =>
    by_cases hfits : length < 0 ∨ length > after.length
    · refine .inr ?_
      rw [readPayload, hlength]
      exact if_pos hfits
    · obtain ⟨n, rfl⟩ := Int.eq_ofNat_of_zero_le (not_lt.1 (not_or.1 hfits).1)
      rw [readPayload_counted hlength (by omega)]
      have hle : (after.drop n).length ≤ after.length := (List.drop_sublist n after).length_le
      cases hdrop : after.drop n with
      | nil => exact .inl ⟨_, [], rfl, Nat.zero_le _⟩
      | cons b rest =>
        rw [hdrop, List.length_cons] at hle
        rw [afterNewline_cons]
        split
        · exact .inr rfl
        · exact .inl ⟨_, rest, rfl, (Nat.le_succ _).trans hle⟩

/-- A turn of the loop gets nearer to the envelope's end, or finds its error. -/
theorem nextItem_advances (lib : EnvelopeLibrary) {rest : Bytes} (h : rest ≠ []) :
    (∃ found after, nextItem lib rest = .ok (found, after) ∧ after.length < rest.length) ∨
      nextItem lib rest = .error .invalidEnvelope ∨ nextItem lib rest = .error .invalidItemHeader := by
  obtain ⟨b, tail, rfl⟩ := List.exists_cons_of_ne_nil h
  have hcut : (cut (b :: tail)).2.length ≤ tail.length := length_cut _
  unfold nextItem
  simp only [byteAt_cons, sliceFrom_cons]
  change (∃ found after, (if b = newline then _ else _ : Except EnvelopeError _) = _ ∧ _) ∨
    (if b = newline then _ else _ : Except EnvelopeError _) = _ ∨ (if b = newline then _ else _ : Except EnvelopeError _) = _
  split
  · exact .inl ⟨none, tail, rfl, Nat.lt_succ_self _⟩
  · cases lib.unmarshalItemHeader (cut (b :: tail)).1 with
    | none => exact .inr (.inr rfl)
    | some header =>
      simp only
      split
      · exact .inr (.inr rfl)
      · rcases readPayload_advances header (cut (b :: tail)).2 with ⟨payload, rest, hread, hle⟩ | hread
        · rw [hread]
          exact .inl ⟨_, rest, rfl, Nat.lt_succ_of_le (hle.trans hcut)⟩
        · rw [hread]
          exact .inr (.inl rfl)

/-- Reading an item takes some of the envelope. -/
theorem length_lt_of_nextItem {rest after : Bytes} {found : Option (String × Bytes)} (hrest : rest ≠ [])
    (hnext : nextItem lib rest = .ok (found, after)) : after.length < rest.length := by
  rcases nextItem_advances lib hrest with ⟨_, _, hok, hlt⟩ | herr | herr
  · cases hok.symm.trans hnext
    exact hlt
  · cases hnext.symm.trans herr
  · cases hnext.symm.trans herr

end Advances

section Loop

variable (lib : EnvelopeLibrary)

/-- The loop over what is left of an envelope. -/
def readItems (items : EnvelopeItems) (rest : Bytes) : Except EnvelopeError EnvelopeItems :=
  if _ : rest = [] then .ok items
  else
    match _ : nextItem lib rest with
    | .error err => .error err
    | .ok (none, after) => readItems items after
    | .ok (some (type, payload), after) => readItems (items.keep type payload) after
termination_by rest.length
decreasing_by
  · exact length_lt_of_nextItem ‹_› ‹_›
  · exact length_lt_of_nextItem ‹_› ‹_›

/-- The items of an envelope. -/
def readEnvelope (envelope : Bytes) : Except EnvelopeError EnvelopeItems :=
  let (envelopeHeader, rest) := cut envelope
  match lib.unmarshalHeaders envelopeHeader with
  | none => .error .invalidEnvelope
  | some headers => readItems lib ⟨false, [], [], [], sampleRateOf lib headers⟩ rest

end Loop

section Turns

variable {lib : EnvelopeLibrary}

/-- An envelope without more items is read. -/
@[simp]
theorem readItems_nil (items : EnvelopeItems) : readItems lib items [] = .ok items := by
  rw [readItems, dif_pos rfl]

/-- A blank line between items is skipped. -/
theorem readItems_newline (items : EnvelopeItems) (rest : Bytes) :
    readItems lib items (newline :: rest) = readItems lib items rest := by
  have hnext : nextItem lib (newline :: rest) = .ok (none, rest) := by
    rw [nextItem, byteAt_cons, sliceFrom_cons]
    rfl
  rw [readItems, dif_neg (List.cons_ne_nil _ _)]
  split
  next h => cases hnext.symm.trans h
  next h =>
    cases hnext.symm.trans h
    rfl
  next h => cases hnext.symm.trans h

/-- Blank lines between items are skipped. -/
theorem readItems_newlines (items : EnvelopeItems) (blanks : ℕ) (rest : Bytes) :
    readItems lib items (List.replicate blanks newline ++ rest) = readItems lib items rest := by
  induction blanks with
  | zero => rfl
  | succ blanks ih => rw [List.replicate_succ, List.cons_append, readItems_newline, ih]

/-- An item that is found is kept, and the rest is read. -/
theorem readItems_found {rest after payload : Bytes} {type : String} (items : EnvelopeItems) (hrest : rest ≠ [])
    (hnext : nextItem lib rest = .ok (some (type, payload), after)) :
    readItems lib items rest = readItems lib (items.keep type payload) after := by
  rw [readItems, dif_neg hrest]
  split
  next h => cases hnext.symm.trans h
  next h => cases hnext.symm.trans h
  next h =>
    cases hnext.symm.trans h
    rfl

/-- The loop ends with items or one of the two errors. -/
theorem readItems_ends (items : EnvelopeItems) (rest : Bytes) :
    (∃ read, readItems lib items rest = .ok read) ∨ readItems lib items rest = .error .invalidEnvelope ∨
      readItems lib items rest = .error .invalidItemHeader := by
  induction hlength : rest.length using Nat.strong_induction_on generalizing items rest with
  | _ n ih =>
    by_cases hrest : rest = []
    · exact .inl ⟨items, hrest ▸ readItems_nil items⟩
    · rw [readItems, dif_neg hrest]
      rcases nextItem_advances lib hrest with ⟨found, after, hok, hlt⟩ | herr | herr
      · split
        next h => cases hok.symm.trans h
        next h =>
          cases hok.symm.trans h
          exact ih _ (hlength ▸ hlt) _ _ rfl
        next h =>
          cases hok.symm.trans h
          exact ih _ (hlength ▸ hlt) _ _ rfl
      · split
        next h =>
          cases herr.symm.trans h
          exact .inr (.inl rfl)
        next h => cases herr.symm.trans h
        next h => cases herr.symm.trans h
      · split
        next h =>
          cases herr.symm.trans h
          exact .inr (.inr rfl)
        next h => cases herr.symm.trans h
        next h => cases herr.symm.trans h

end Turns

section Written

variable {lib : EnvelopeLibrary}

/-- An item as it is written: a line of headers that give its type, and the length of its payload unless
the payload has no newline. -/
structure WrittenItem (lib : EnvelopeLibrary) where
  line : Bytes
  header : ItemHeader
  payload : Bytes
  line_ne_nil : line ≠ []
  newline_notMem : newline ∉ line
  unmarshal_line : lib.unmarshalItemHeader line = some header
  type_ne_empty : header.type ≠ ""
  counted : header.length = some (payload.length : ℤ) ∨ header.length = none ∧ newline ∉ payload

/-- An envelope's own headers as they are written. -/
structure WrittenHeaders (lib : EnvelopeLibrary) where
  line : Bytes
  headers : List (String × Bytes)
  newline_notMem : newline ∉ line
  unmarshal_line : lib.unmarshalHeaders line = some headers

/-- Items as they are written after an envelope's headers, each after a newline and as many empty lines
as it comes with; `final` newlines end the envelope. -/
def writeItems (final : ℕ) : List (ℕ × WrittenItem lib) → Bytes
  | [] => List.replicate final newline
  | (blanks, item) :: rest => newline :: (List.replicate blanks newline ++
      (item.line ++ newline :: (item.payload ++ writeItems final rest)))

def writeEnvelope (headers : WrittenHeaders lib) (items : List (ℕ × WrittenItem lib)) (final : ℕ) : Bytes :=
  headers.line ++ writeItems final items

/-- The payloads of the items of a type. -/
def payloadsOf (type : String) (items : List (ℕ × WrittenItem lib)) : List Bytes :=
  (items.filter fun e => e.2.header.type = type).map fun e => e.2.payload

/-- A line ends at its newline, or at the end of the envelope. -/
theorem cut_append {bytes rest : Bytes} (hbytes : newline ∉ bytes) (hrest : ∀ b ∈ rest.head?, b = newline) :
    cut (bytes ++ rest) = (bytes, rest.tail) := by
  have hall : ∀ b ∈ bytes, decide (b ≠ newline) = true := fun b hb =>
    decide_eq_true fun h => hbytes (h ▸ hb)
  rw [cut, List.takeWhile_append_of_pos hall, List.dropWhile_append_of_pos hall]
  cases rest with
  | nil => rw [List.takeWhile_nil, List.dropWhile_nil, List.append_nil]
  | cons b rest =>
    obtain rfl := hrest b rfl
    rw [List.takeWhile_cons_of_neg (by simp), List.dropWhile_cons_of_neg (by simp), List.append_nil]

/-- Each item that is written starts with a newline. -/
theorem head_writeItems (final : ℕ) (items : List (ℕ × WrittenItem lib)) :
    ∀ b ∈ (writeItems final items).head?, b = newline := by
  intro b hb
  cases items with
  | nil => exact List.eq_of_mem_replicate (List.mem_of_mem_head? hb)
  | cons e rest => exact (Option.some.inj hb).symm

/-- What follows a payload is what is written after its newline. -/
theorem afterNewline_starts {after : Bytes} (h : ∀ b ∈ after.head?, b = newline) :
    afterNewline after = .ok after.tail := by
  cases after with
  | nil => rfl
  | cons b rest => rw [afterNewline_cons, if_neg (not_not.2 (h b rfl)), List.tail_cons]

/-- A written item's payload is read byte for byte. -/
theorem readPayload_written (item : WrittenItem lib) {after : Bytes} (h : ∀ b ∈ after.head?, b = newline) :
    readPayload item.header (item.payload ++ after) = .ok (item.payload, after.tail) := by
  rcases item.counted with hcounted | ⟨huncounted, hpayload⟩
  · rw [readPayload_counted hcounted (by rw [List.length_append]; omega), List.drop_left, List.take_left,
      afterNewline_starts h]
    rfl
  · rw [readPayload, huncounted]
    exact congrArg _ (cut_append hpayload h)

/-- A written item is read whole. -/
theorem nextItem_written (item : WrittenItem lib) {after : Bytes} (h : ∀ b ∈ after.head?, b = newline) :
    nextItem lib (item.line ++ newline :: (item.payload ++ after)) =
      .ok (some (item.header.type, item.payload), after.tail) := by
  have hcut : cut (item.line ++ newline :: (item.payload ++ after)) = (item.line, item.payload ++ after) :=
    cut_append item.newline_notMem fun b hb => (Option.some.inj hb).symm
  obtain ⟨first, line, hline⟩ := List.exists_cons_of_ne_nil item.line_ne_nil
  have hfirst : first ≠ newline := fun hfirst =>
    item.newline_notMem (hline ▸ hfirst ▸ List.mem_cons_self)
  have hat : byteAt (item.line ++ newline :: (item.payload ++ after)) 0 = .ok first := by rw [hline]; rfl
  rw [nextItem, hat, hcut]
  change (if first = newline then _ else _ : Except EnvelopeError _) = _
  rw [if_neg hfirst]
  dsimp only
  rw [item.unmarshal_line]
  dsimp only
  rw [if_neg item.type_ne_empty, readPayload_written item h]
  rfl

/-- The loop keeps each written item in order. -/
theorem readItems_writeItems (final : ℕ) (items : List (ℕ × WrittenItem lib)) (kept : EnvelopeItems) :
    readItems lib kept (writeItems final items).tail =
      .ok (items.foldl (fun kept e => kept.keep e.2.header.type e.2.payload) kept) := by
  induction items generalizing kept with
  | nil =>
    have hfinal := @readItems_newlines lib kept (final - 1) []
    rw [List.append_nil, readItems_nil] at hfinal
    rw [writeItems, List.tail_replicate, hfinal, List.foldl_nil]
  | cons e rest ih =>
    obtain ⟨blanks, item⟩ := e
    have hne : item.line ++ newline :: (item.payload ++ writeItems final rest) ≠ [] :=
      List.append_ne_nil_of_left_ne_nil item.line_ne_nil _
    rw [writeItems, List.tail_cons, readItems_newlines,
      readItems_found kept hne (nextItem_written item (head_writeItems final rest)), ih, List.foldl_cons]

/-- An item's payload stands first among those of its type. -/
theorem payloadsOf_cons (type : String) (e : ℕ × WrittenItem lib) (rest : List (ℕ × WrittenItem lib)) :
    payloadsOf type (e :: rest) =
      if e.2.header.type = type then e.2.payload :: payloadsOf type rest else payloadsOf type rest := by
  unfold payloadsOf
  by_cases htype : e.2.header.type = type
  · rw [List.filter_cons_of_pos (by simpa using htype), if_pos htype, List.map_cons]
  · rw [List.filter_cons_of_neg (by simpa using htype), if_neg htype]

/-- What is kept of items: the first event, and the logs and transactions in order. -/
theorem foldl_keep (items : List (ℕ × WrittenItem lib)) (kept : EnvelopeItems) :
    items.foldl (fun kept e => kept.keep e.2.header.type e.2.payload) kept =
      { kept with
        hasEvent := kept.hasEvent || (payloadsOf "event" items).head?.isSome
        event := if kept.hasEvent then kept.event else (payloadsOf "event" items).head?.getD kept.event
        logs := kept.logs ++ payloadsOf "log" items
        transactions := kept.transactions ++ payloadsOf "transaction" items } := by
  induction items generalizing kept with
  | nil => simp [payloadsOf]
  | cons e rest ih =>
    rw [List.foldl_cons, ih]
    simp only [payloadsOf_cons, EnvelopeItems.keep]
    by_cases hevent : e.2.header.type = "event"
    · simp only [hevent, true_and, String.reduceEq, if_false, if_true, List.head?_cons]
      cases hhas : kept.hasEvent <;> simp [hhas]
    by_cases hlog : e.2.header.type = "log"
    · simp [hlog]
    by_cases htransaction : e.2.header.type = "transaction"
    · simp [htransaction]
    · simp [hevent, hlog, htransaction]

/-- What is read back of an envelope. -/
def itemsOf (headers : WrittenHeaders lib) (items : List (ℕ × WrittenItem lib)) : EnvelopeItems where
  hasEvent := (payloadsOf "event" items).head?.isSome
  event := (payloadsOf "event" items).head?.getD []
  logs := payloadsOf "log" items
  transactions := payloadsOf "transaction" items
  sampleRate := sampleRateOf lib headers.headers

/-- An envelope reads back as it was written, and every byte string reads as items or one of the two
errors. -/
theorem readEnvelope_writeEnvelope (lib : EnvelopeLibrary) :
    (∀ (headers : WrittenHeaders lib) (items : List (ℕ × WrittenItem lib)) (final : ℕ),
      readEnvelope lib (writeEnvelope headers items final) = .ok (itemsOf headers items)) ∧
    ∀ envelope, (∃ items, readEnvelope lib envelope = .ok items) ∨
      readEnvelope lib envelope = .error .invalidEnvelope ∨
      readEnvelope lib envelope = .error .invalidItemHeader := by
  constructor
  · intro headers items final
    rw [readEnvelope, writeEnvelope, cut_append headers.newline_notMem (head_writeItems final items)]
    dsimp only
    rw [headers.unmarshal_line]
    dsimp only
    rw [readItems_writeItems, foldl_keep]
    simp [itemsOf]
  · intro envelope
    unfold readEnvelope
    dsimp only
    cases lib.unmarshalHeaders (cut envelope).1 with
    | none => exact .inr (.inl rfl)
    | some headers => exact readItems_ends _ _

end Written

section Example

/-- What the standard library does on the headers of two items. -/
def twoItems : EnvelopeLibrary where
  unmarshalHeaders line := if line = "\x7b\x7d".toUTF8.toList then some [] else none
  unmarshalItemHeader line :=
    if line = "\x7b\"type\":\"event\",\"length\":3\x7d".toUTF8.toList then some ⟨"event", some 3⟩
    else if line = "\x7b\"type\":\"log\"\x7d".toUTF8.toList then some ⟨"log", none⟩
    else none
  unmarshalSampleRate _ := none
  parseFloat _ := none

/-- Empty headers. -/
def noHeaders : WrittenHeaders twoItems where
  line := "\x7b\x7d".toUTF8.toList
  headers := []
  newline_notMem := by decide +kernel
  unmarshal_line := by decide +kernel

/-- An event of newlines alone, and a log without a length. -/
def eventThenLog : List (ℕ × WrittenItem twoItems) :=
  [(1, {
      line := "\x7b\"type\":\"event\",\"length\":3\x7d".toUTF8.toList
      header := ⟨"event", some 3⟩
      payload := [newline, newline, newline]
      line_ne_nil := by decide +kernel
      newline_notMem := by decide +kernel
      unmarshal_line := by decide +kernel
      type_ne_empty := by decide
      counted := .inl rfl }),
    (1, {
      line := "\x7b\"type\":\"log\"\x7d".toUTF8.toList
      header := ⟨"log", none⟩
      payload := "\x7b\x7d".toUTF8.toList
      line_ne_nil := by decide +kernel
      newline_notMem := by decide +kernel
      unmarshal_line := by decide +kernel
      type_ne_empty := by decide
      counted := .inr ⟨rfl, by decide +kernel⟩ })]

/-- An event, a blank line and a Log are read. -/
theorem readEnvelope_eventThenLog :
    readEnvelope twoItems ("\x7b\x7d\n\n\x7b\"type\":\"event\",\"length\":3\x7d\n\n\n\n\n\n" ++
      "\x7b\"type\":\"log\"\x7d\n\x7b\x7d").toUTF8.toList =
        .ok ⟨true, [newline, newline, newline], ["\x7b\x7d".toUTF8.toList], [], 1⟩ := by
  have hbytes : writeEnvelope noHeaders eventThenLog 0 =
      ("\x7b\x7d\n\n\x7b\"type\":\"event\",\"length\":3\x7d\n\n\n\n\n\n" ++
        "\x7b\"type\":\"log\"\x7d\n\x7b\x7d").toUTF8.toList := by decide +kernel
  have hitems : itemsOf noHeaders eventThenLog =
      ⟨true, [newline, newline, newline], ["\x7b\x7d".toUTF8.toList], [], 1⟩ := by decide +kernel
  rw [← hbytes, (readEnvelope_writeEnvelope twoItems).1, hitems]

end Example

end SolidTrace.Ingest
