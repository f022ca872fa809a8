import SolidTrace.Lib.Digits

/-!
# Names and values as a form's text

The encoding `application/x-www-form-urlencoded` of a list of names and values, as a URL's search holds
it: `a=1&b=x+y`. Text is its UTF-8 bytes, of which most are escaped, as `%C3`. A text that was not
encoded so is read all the same, as browsers do.
-/

namespace FormEncoding

section Characters

def replacement : Char := Char.ofNat 0xFFFD

/-- A character of which bytes are missing: how many, between what the next must be, and the bits so
far. -/
structure Begun where
  missing : ℕ
  lower : ℕ
  upper : ℕ
  point : ℕ

/-- A character's first byte: the characters it ends, and the one it begins. -/
def firstByte (b : ℕ) : List Char × Option Begun :=
  if b < 0x80 then ([Char.ofNat b], none)
  else if 0xC2 ≤ b ∧ b ≤ 0xDF then ([], some ⟨1, 0x80, 0xBF, b - 0xC0⟩)
  else if 0xE0 ≤ b ∧ b ≤ 0xEF then
    ([], some ⟨2, if b = 0xE0 then 0xA0 else 0x80, if b = 0xED then 0x9F else 0xBF, b - 0xE0⟩)
  else if 0xF0 ≤ b ∧ b ≤ 0xF4 then
    ([], some ⟨3, if b = 0xF0 then 0x90 else 0x80, if b = 0xF4 then 0x8F else 0xBF, b - 0xF0⟩)
  else ([replacement], none)

/-- A byte after a character's first. One that can't follow ends the character, which it replaces, and
begins another. -/
def nextByte (begun : Begun) (b : ℕ) : List Char × Option Begun :=
  if b < begun.lower ∨ begun.upper < b then
    let (chars, begun) := firstByte b
    (replacement :: chars, begun)
  else
    let point := begun.point * 64 + (b - 0x80)
    if begun.missing = 1 then ([Char.ofNat point], none)
    else ([], some ⟨begun.missing - 1, 0x80, 0xBF, point⟩)

/-- Bytes that need not be UTF-8 as characters. -/
def decodeLossy : Option Begun → List UInt8 → List Char
  | none, [] => []
  | some _, [] => [replacement]
  | none, b :: rest =>
    let (chars, begun) := firstByte b.toNat
    chars ++ decodeLossy begun rest
  | some begun, b :: rest =>
    let (chars, begun) := nextByte begun b.toNat
    chars ++ decodeLossy begun rest

def utf8Bytes (text : String) : List UInt8 := text.toList.flatMap String.utf8EncodeChar

def ofUtf8Bytes (bytes : List UInt8) : String :=
  (String.fromUTF8? bytes.toByteArray).getD (.ofList (decodeLossy none bytes))

/-- A text's bytes are decoded as the text. -/
theorem ofUtf8Bytes_utf8Bytes (text : String) : ofUtf8Bytes (utf8Bytes text) = text := by
  have hbytes : (utf8Bytes text).toByteArray = text.toByteArray := by
    rw [← String.utf8Encode_toList]
    rfl
  have hvalid : text.toByteArray.IsValidUTF8 := text.isValidUTF8
  rw [ofUtf8Bytes, hbytes, String.fromUTF8?, dif_pos hvalid]
  rfl

end Characters

section Escapes

/-- A hexadecimal digit, in upper case. -/
def hexChar (d : ℕ) : Char := if d < 10 then Char.ofNat (48 + d) else Char.ofNat (55 + d)

/-- The bytes written as they are: letters, digits and `*-._`. -/
def isPlain (b : ℕ) : Bool :=
  (48 ≤ b && b ≤ 57) || (65 ≤ b && b ≤ 90) || (97 ≤ b && b ≤ 122) || b = 42 || b = 45 || b = 46 || b = 95

def encodeByte (b : UInt8) : List Char :=
  if b = 32 then ['+']
  else if isPlain b.toNat then [Char.ofNat b.toNat]
  else ['%', hexChar (b.toNat / 16), hexChar (b.toNat % 16)]

def encode (text : String) : List Char := (utf8Bytes text).flatMap encodeByte

/-- The bytes of an encoded text. -/
def decodeBytes : List Char → List UInt8
  | '+' :: rest => 32 :: decodeBytes rest
  | '%' :: high :: low :: rest =>
    match Digits.hexadecimal high, Digits.hexadecimal low with
    | some h, some l => UInt8.ofNat (16 * h + l) :: decodeBytes rest
    | _, _ => 37 :: decodeBytes (high :: low :: rest)
  | c :: rest => String.utf8EncodeChar c ++ decodeBytes rest
  | [] => []

def decode (chars : List Char) : String := ofUtf8Bytes (decodeBytes chars)

/-- A digit written in upper-case hexadecimal is read back. -/
theorem hexadecimal_hexChar {d : ℕ} (h : d < 16) : Digits.hexadecimal (hexChar d) = some d := by
  interval_cases d <;> decide

/-- A byte written as itself is neither a separator nor an escape, and one character of the text. -/
theorem isPlain_char : ∀ b : UInt8, isPlain b.toNat = true →
    Char.ofNat b.toNat ≠ '+' ∧ Char.ofNat b.toNat ≠ '%' ∧ Char.ofNat b.toNat ≠ '&' ∧
      Char.ofNat b.toNat ≠ '=' ∧ String.utf8EncodeChar (Char.ofNat b.toNat) = [b] := by
  have hall : ∀ n : Fin 256, isPlain (UInt8.ofNat n).toNat = true →
      Char.ofNat (UInt8.ofNat n).toNat ≠ '+' ∧ Char.ofNat (UInt8.ofNat n).toNat ≠ '%' ∧
        Char.ofNat (UInt8.ofNat n).toNat ≠ '&' ∧ Char.ofNat (UInt8.ofNat n).toNat ≠ '=' ∧
          String.utf8EncodeChar (Char.ofNat (UInt8.ofNat n).toNat) = [UInt8.ofNat n] := by
    decide +kernel
  intro b
  have hb := hall ⟨b.toNat, b.toNat_lt⟩
  simpa using hb

/-- A character that is neither a plus nor an escape stands for itself. -/
theorem decodeBytes_cons {c : Char} {rest : List Char} (hplus : c ≠ '+') (hpercent : c ≠ '%') :
    decodeBytes (c :: rest) = String.utf8EncodeChar c ++ decodeBytes rest := by
  rw [decodeBytes]
  · exact hplus
  · intro high low rest' h
    exact absurd h hpercent

/-- An encoded byte is read back. -/
theorem decodeBytes_encodeByte (b : UInt8) (rest : List Char) :
    decodeBytes (encodeByte b ++ rest) = b :: decodeBytes rest := by
  have hb := b.toNat_lt
  unfold encodeByte
  split
  next h => rw [h, List.singleton_append, decodeBytes]
  · split
    next h =>
      obtain ⟨hplus, hpercent, -, -, hchar⟩ := isPlain_char b h
      rw [List.singleton_append, decodeBytes_cons hplus hpercent, hchar, List.singleton_append]
    next h =>
      have hsum : 16 * (b.toNat / 16) + b.toNat % 16 = b.toNat := by omega
      simp only [List.cons_append, List.nil_append]
      rw [decodeBytes, hexadecimal_hexChar (by omega), hexadecimal_hexChar (by omega)]
      simp only [hsum, UInt8.ofNat_toNat]

/-- A text is decoded as it was before it was encoded. -/
theorem decode_encode (text : String) : decode (encode text) = text := by
  have hbytes : ∀ bytes : List UInt8, decodeBytes (bytes.flatMap encodeByte) = bytes := by
    intro bytes
    induction bytes with
    | nil => rfl
    | cons b rest ih => rw [List.flatMap_cons, decodeBytes_encodeByte, ih]
  rw [decode, encode, hbytes, ofUtf8Bytes_utf8Bytes]

/-- A hexadecimal digit is no separator. -/
theorem hexChar_apart {d : ℕ} (h : d < 16) : hexChar d ≠ '&' ∧ hexChar d ≠ '=' := by
  interval_cases d <;> decide

/-- An encoded text has none of the characters that part names and values. -/
theorem encode_apart (text : String) : ∀ c ∈ encode text, c ≠ '&' ∧ c ≠ '=' := by
  intro c hc
  obtain ⟨b, -, hc⟩ := List.mem_flatMap.1 hc
  have hb := b.toNat_lt
  unfold encodeByte at hc
  split at hc
  · rw [List.mem_singleton.1 hc]
    decide
  · split at hc
    next h =>
      obtain ⟨-, -, hamp, heq, -⟩ := isPlain_char b h
      rw [List.mem_singleton.1 hc]
      exact ⟨hamp, heq⟩
    · simp only [List.mem_cons, List.not_mem_nil, or_false] at hc
      rcases hc with rfl | rfl | rfl
      · decide
      · exact hexChar_apart (by omega)
      · exact hexChar_apart (by omega)

end Escapes

section Pairs

abbrev Pairs := List (String × String)

def encodePair (pair : String × String) : List Char := encode pair.1 ++ '=' :: encode pair.2

def serialize (pairs : Pairs) : String := .ofList (['&'].intercalate (pairs.map encodePair))

/-- A name and a value, which may be left out. -/
def parsePair (chars : List Char) : String × String :=
  (decode (chars.takeWhile (· ≠ '=')), decode (chars.dropWhile (· ≠ '=')).tail)

def parse (text : String) : Pairs :=
  ((text.toList.splitOn '&').filter (· ≠ [])).map parsePair

/-- A pair is parsed as it was before it was encoded. -/
theorem parsePair_encodePair (pair : String × String) : parsePair (encodePair pair) = pair := by
  have hname : ∀ c ∈ encode pair.1, decide (c ≠ '=') = true := fun c hc =>
    decide_eq_true (encode_apart _ c hc).2
  unfold parsePair encodePair
  rw [List.takeWhile_append_of_pos hname, List.dropWhile_append_of_pos hname]
  simp [decode_encode]

/-- What is written is read back. -/
theorem parse_serialize (pairs : Pairs) : parse (serialize pairs) = pairs := by
  have hapart : ∀ part ∈ pairs.map encodePair, '&' ∉ part := by
    intro part hpart hamp
    obtain ⟨pair, -, rfl⟩ := List.mem_map.1 hpart
    unfold encodePair at hamp
    rcases List.mem_append.1 hamp with hname | hvalue
    · exact (encode_apart _ _ hname).1 rfl
    · rcases List.mem_cons.1 hvalue with heq | hvalue
      · cases heq
      · exact (encode_apart _ _ hvalue).1 rfl
  have hparts : ((['&'].intercalate (pairs.map encodePair)).splitOn '&').filter (· ≠ []) =
      pairs.map encodePair := by
    cases pairs with
    | nil => rfl
    | cons pair rest =>
      rw [List.splitOn_intercalate '&' hapart (by simp), List.filter_eq_self]
      intro part hpart
      obtain ⟨pair, -, rfl⟩ := List.mem_map.1 hpart
      simp [encodePair]
  rw [parse, serialize, String.toList_ofList, hparts, List.map_map]
  exact List.map_id'' parsePair_encodePair pairs

end Pairs

end FormEncoding
