import SolidTrace.Lib.Utf8
import SolidTrace.LogQuery.ParseQuery
import SolidTrace.LogQuery.ScanPlaces

/-!
# A Query's bytes

A Query's text is any bytes, as Go takes a string: the characters they are, and each byte that is no
part of one.
-/

namespace SolidTrace.LogQuery

section Bytes

/-- The character that some bytes start with, if they are valid UTF-8 so far. -/
def decodeRune (bytes : List UInt8) : Option Char := ByteArray.utf8DecodeChar? ⟨bytes.toArray⟩ 0

/-- What some bytes are read as, past those of the character before. -/
def decodeFrom : ℕ → List UInt8 → Text
  | _, [] => []
  | skipped + 1, _ :: rest => decodeFrom skipped rest
  | 0, byte :: rest =>
    match decodeRune (byte :: rest) with
    | some c => .char c :: decodeFrom (c.utf8Size - 1) rest
    | none => .broken byte :: decodeFrom 0 rest

def decode (bytes : List UInt8) : Text := decodeFrom 0 bytes

def Text.bytes (text : Text) : List UInt8 := text.flatMap Rune.bytes

/-- The text with each byte that is no part of a character as a character of one byte, which keeps every
place. -/
def Text.shown (text : Text) : String :=
  .ofList (text.map fun
    | .char c => c
    | .broken _ => '\x1a')

/-- Parse a Query's bytes. -/
def parseBytes (abc : Alphabet) (bytes : List UInt8) : Except Error Syntax.Query :=
  Parser.query ⟨(decode bytes).shown, abc.quote⟩ (scan abc (decode bytes))

end Bytes

section Sizes

/-- An empty text has no bytes. -/
@[simp] theorem Text.bytes_nil : Text.bytes [] = [] := rfl

/-- A text has the bytes of its first character and of the rest. -/
@[simp] theorem Text.bytes_cons (r : Rune) (text : Text) :
    Text.bytes (r :: text) = r.bytes ++ text.bytes := rfl

/-- Two texts have the bytes of each. -/
@[simp] theorem Text.bytes_append (a b : Text) : Text.bytes (a ++ b) = a.bytes ++ b.bytes :=
  List.flatMap_append

/-- A text has as many bytes as its size. -/
theorem Text.length_bytes (text : Text) : text.bytes.length = text.size := by
  induction text with
  | nil => rfl
  | cons r text ih => rw [bytes_cons, List.length_append, size_cons, ih]

/-- A text that is shown takes as many bytes as it was read from. -/
theorem Text.size_shown (text : Text) : text.shown.utf8ByteSize = text.size := by
  induction text with
  | nil => rfl
  | cons r text ih =>
    have hcons : Text.shown (r :: text) =
        String.ofList [match r with | .char c => c | .broken _ => '\x1a'] ++ Text.shown text := by
      rw [Text.shown, Text.shown, List.map_cons, ← String.ofList_append]
      rfl
    rw [hcons, String.utf8ByteSize_append, ih, size_cons]
    cases r with
    | char c => simp [Rune.bytes]
    | broken byte => simp [Rune.bytes]; rfl

end Sizes

section Decoding

/-- A character is decoded from its own bytes. -/
theorem decodeRune_eq_some {bytes : List UInt8} {c : Char} (h : decodeRune bytes = some c) :
    ∃ rest, bytes = String.utf8EncodeChar c ++ rest := by
  obtain ⟨rest, hrest⟩ := ByteArray.exists_of_utf8DecodeChar?_eq_some h
  refine ⟨rest.data.toList, ?_⟩
  have hdata := congrArg (fun b : ByteArray => b.data.toList) hrest
  simpa [ByteArray.toList_data_append, List.utf8Encode] using hdata

/-- The bytes of a character are decoded as it, whatever follows. -/
theorem decodeRune_utf8EncodeChar (c : Char) (rest : List UInt8) :
    decodeRune (String.utf8EncodeChar c ++ rest) = some c := by
  have hbytes : (⟨(String.utf8EncodeChar c ++ rest).toArray⟩ : ByteArray) =
      (String.utf8EncodeChar c).toByteArray ++ ⟨rest.toArray⟩ := by
    apply ByteArray.ext
    simp
  rw [decodeRune, hbytes]
  exact ByteArray.utf8DecodeChar?_utf8EncodeChar_append

/-- Decoding loses no byte. -/
theorem bytes_decodeFrom (skipped : ℕ) (bytes : List UInt8) :
    (decodeFrom skipped bytes).bytes = bytes.drop skipped := by
  induction bytes generalizing skipped with
  | nil => cases skipped <;> rfl
  | cons byte rest ih =>
    cases skipped with
    | succ skipped => exact ih skipped
    | zero =>
      rw [decodeFrom]
      split
      next c hc =>
        obtain ⟨after, hafter⟩ := decodeRune_eq_some hc
        have hsize := c.utf8Size_pos
        have hrest : rest.drop (c.utf8Size - 1) = after := by
          have hdrop : (byte :: rest).drop c.utf8Size = after := by
            rw [hafter]
            exact List.drop_left' (String.length_utf8EncodeChar c)
          rw [← hdrop]
          conv_rhs => rw [← Nat.sub_add_cancel hsize, List.drop_succ_cons]
        rw [Text.bytes_cons, ih, hrest, Rune.bytes, List.drop_zero, hafter]
      next => rw [Text.bytes_cons, ih, Rune.bytes, List.drop_zero, List.drop_zero, List.singleton_append]

/-- Reading bytes keeps each of them. -/
@[simp] theorem bytes_decode (bytes : List UInt8) : (decode bytes).bytes = bytes :=
  bytes_decodeFrom 0 bytes

/-- Bytes that belong to a character before are dropped. -/
theorem decodeFrom_drop (skipped : ℕ) (bytes : List UInt8) :
    decodeFrom skipped bytes = decode (bytes.drop skipped) := by
  induction bytes generalizing skipped with
  | nil => cases skipped <;> rfl
  | cons byte rest ih =>
    cases skipped with
    | zero => rfl
    | succ skipped => exact ih skipped

/-- A character and the rest are decoded one after the other. -/
theorem decode_utf8EncodeChar (c : Char) (rest : List UInt8) :
    decode (String.utf8EncodeChar c ++ rest) = .char c :: decode rest := by
  have hc := decodeRune_utf8EncodeChar c rest
  have hlength := String.length_utf8EncodeChar c
  cases hbytes : String.utf8EncodeChar c with
  | nil => exact absurd hbytes String.utf8EncodeChar_ne_nil
  | cons byte more =>
    rw [hbytes] at hc hlength
    rw [List.cons_append] at hc ⊢
    rw [decode, decodeFrom, hc]
    dsimp only
    rw [← hlength, decodeFrom_drop]
    simp

/-- A text of characters is read as those. -/
theorem decode_bytes (text : String) : decode (Utf8.bytes text) = runes text := by
  rw [Utf8.bytes_eq_flatMap, runes]
  induction text.toList with
  | nil => rfl
  | cons c cs ih => rw [List.flatMap_cons, decode_utf8EncodeChar, ih, List.map_cons]

/-- A text is shown as it is. -/
theorem shown_runes (text : String) : (runes text).shown = text := by
  rw [Text.shown, runes, List.map_map]
  exact (congrArg String.ofList (List.map_id _)).trans String.ofList_toList

/-- Of a text of characters, it is parsing that. -/
theorem parseBytes_bytes (abc : Alphabet) (text : String) :
    parseBytes abc (Utf8.bytes text) = parse abc text := by
  rw [parseBytes, decode_bytes, shown_runes, parse]

end Decoding

section Proper

/-- No byte that is no part of a character is ASCII. -/
def Text.Proper (text : Text) : Prop := ∀ byte, .broken byte ∈ text → 128 ≤ byte.toNat

/-- A byte that starts no character is none of ASCII's. -/
theorem le_of_decodeRune_eq_none {byte : UInt8} {rest : List UInt8} (h : decodeRune (byte :: rest) = none) :
    128 ≤ byte.toNat := by
  by_contra hascii
  have hlt := Nat.lt_of_not_le hascii
  have hvalid : byte.toNat.isValidChar := .inl (by omega)
  have hvalue : (Char.ofNat byte.toNat).toNat = byte.toNat := by
    rw [Char.ofNat, dif_pos hvalid]
    rfl
  have hencode := @Utf8.utf8EncodeChar_ascii (Char.ofNat byte.toNat) (by omega)
  have hdecode := decodeRune_utf8EncodeChar (Char.ofNat byte.toNat) rest
  rw [hencode, hvalue, UInt8.ofNat_toNat, List.singleton_append, h] at hdecode
  cases hdecode

/-- What is decoded is proper, wherever decoding starts. -/
theorem proper_decodeFrom (skipped : ℕ) (bytes : List UInt8) : (decodeFrom skipped bytes).Proper := by
  induction bytes generalizing skipped with
  | nil => cases skipped <;> exact nofun
  | cons byte rest ih =>
    cases skipped with
    | succ skipped => exact ih skipped
    | zero =>
      intro other hmem
      rw [decodeFrom] at hmem
      split at hmem
      · rcases List.mem_cons.1 hmem with heq | hmem
        · cases heq
        · exact ih _ other hmem
      next hnone =>
        rcases List.mem_cons.1 hmem with heq | hmem
        · cases heq
          exact le_of_decodeRune_eq_none hnone
        · exact ih _ other hmem

/-- What is decoded is proper. -/
theorem proper_decode (bytes : List UInt8) : (decode bytes).Proper := proper_decodeFrom 0 bytes

end Proper

end SolidTrace.LogQuery
