import Mathlib.Data.List.Basic

/-!
# The bytes of a text

A text's bytes one character after another, and parts of texts as spans of their bytes.
-/

namespace Utf8

/-- The loop of toList adds the bytes from its place on, one by one. -/
theorem toList_loop (b : ByteArray) (n i : ℕ) (r : List UInt8) (hn : b.size - i = n) :
    ByteArray.toList.loop b i r = r.reverse ++ b.data.toList.drop i := by
  induction n generalizing i r with
  | zero =>
    have hdrop : b.data.toList.length ≤ i := by
      rw [Array.length_toList]
      exact Nat.le_of_sub_eq_zero hn
    rw [ByteArray.toList.loop, if_neg (by omega), List.drop_eq_nil_of_le hdrop, List.append_nil]
  | succ n ih =>
    have hi : i < b.size := by omega
    have hget : b.data.toList.drop i = b.get! i :: b.data.toList.drop (i + 1) := by
      rw [List.drop_eq_getElem_cons (by simpa using hi)]
      congr 1
      simp [ByteArray.get!, hi]
    rw [ByteArray.toList.loop, if_pos hi, ih (i + 1) _ (by omega), List.reverse_cons,
      List.append_assoc, hget]
    rfl

/-- The list of a byte array is the list of its data. -/
theorem toList_eq_data (b : ByteArray) : b.toList = b.data.toList :=
  toList_loop b _ 0 [] rfl

/-- A text's bytes. -/
def bytes (text : String) : List UInt8 := text.toUTF8.toList

/-- The text of some bytes, or the empty one. -/
def text (bytes : List UInt8) : String := (String.fromUTF8? ⟨bytes.toArray⟩).getD ""

/-- The bytes of a text, as a list. -/
theorem bytes_eq (s : String) : bytes s = s.toByteArray.data.toList := toList_eq_data _

/-- The bytes of two texts one after the other. -/
@[simp] theorem bytes_append (a b : String) : bytes (a ++ b) = bytes a ++ bytes b := by
  rw [bytes_eq, bytes_eq, bytes_eq, String.toByteArray_append]
  exact ByteArray.toList_data_append

/-- One character after another. -/
theorem bytes_eq_flatMap (s : String) : bytes s = s.toList.flatMap String.utf8EncodeChar := by
  rw [bytes_eq, ← String.utf8Encode_toList, List.utf8Encode, List.toList_data_toByteArray]

/-- The bytes of a text are valid UTF-8 of that text. -/
theorem fromUTF8?_bytes (s : String) : String.fromUTF8? ⟨(bytes s).toArray⟩ = some s := by
  have hvalid : s.toByteArray.IsValidUTF8 := s.isValidUTF8
  rw [bytes_eq, Array.toArray_toList, String.fromUTF8?, dif_pos hvalid]
  rfl

/-- A text's bytes are decoded as the text. -/
@[simp] theorem text_bytes (s : String) : text (bytes s) = s := by
  rw [text, fromUTF8?_bytes, Option.getD_some]

/-- The text of a span of a text's bytes. -/
def slice (s : String) (start stop : ℕ) : String := text (((bytes s).drop start).take (stop - start))

/-- A part of a text. -/
theorem slice_part (pre part post : String) :
    slice (pre ++ part ++ post) (bytes pre).length ((bytes pre).length + (bytes part).length) = part := by
  simp [slice]

/-- The bytes before the place where a text was joined are the first part. -/
theorem slice_before (pre post : String) : slice (pre ++ post) 0 (bytes pre).length = pre := by
  simp [slice]

/-- The bytes from the place where a text was joined are the second part. -/
theorem slice_after (pre post : String) :
    slice (pre ++ post) (bytes pre).length (bytes (pre ++ post)).length = post := by
  simp [slice]

/-- What lies in a part of a text is a part of that. -/
theorem slice_within (pre part post : String) {start stop : ℕ} (hstop : stop ≤ (bytes part).length) :
    slice (pre ++ part ++ post) ((bytes pre).length + start) ((bytes pre).length + stop) =
      slice part start stop := by
  have hlength : (bytes pre).length + stop - ((bytes pre).length + start) = stop - start := by omega
  rw [slice, slice, bytes_append, bytes_append, hlength, List.append_assoc, List.drop_append,
    List.drop_eq_nil_of_le (by omega), List.nil_append, Nat.add_sub_cancel_left]
  by_cases hstart : start ≤ (bytes part).length
  · rw [List.drop_append_of_le_length hstart, List.take_append_of_le_length]
    rw [List.length_drop]
    omega
  · have hempty : stop - start = 0 := by omega
    rw [hempty, List.take_zero, List.take_zero]

section Boundaries

/-- Bytes that are a text's. -/
def Valid (bytes : List UInt8) : Prop := ∃ characters : List Char, bytes = characters.flatMap String.utf8EncodeChar

/-- Whether a byte can start a character: one that continues a character starts with the bits 10. -/
def runeStart (b : UInt8) : Bool := b &&& 0xC0 ≠ 0x80

/-- The last place up to `n` where a character can start. -/
def boundary (bytes : List UInt8) : ℕ → ℕ
  | 0 => 0
  | n + 1 => if runeStart (bytes[n + 1]?.getD 0) then n + 1 else boundary bytes n

/-- The nearest boundary is at the place or before it. -/
theorem boundary_le (bytes : List UInt8) (n : ℕ) : boundary bytes n ≤ n := by
  induction n with
  | zero => exact Nat.le_refl _
  | succ n ih =>
    unfold boundary
    split
    · exact Nat.le_refl _
    · exact Nat.le_succ_of_le ih

/-- The nearest boundary is the start, or a byte a rune starts with. -/
theorem boundary_eq_zero_or (bytes : List UInt8) (n : ℕ) :
    boundary bytes n = 0 ∨ runeStart (bytes[boundary bytes n]?.getD 0) = true := by
  induction n with
  | zero => exact .inl rfl
  | succ n ih =>
    unfold boundary
    split
    next h => exact .inr h
    · exact ih

/-- A continuation byte starts no rune. -/
theorem runeStart_continuation (m : ℕ) : runeStart (UInt8.ofNat (m % 64 + 128)) = false := by
  have hall : ∀ m < 64, runeStart (UInt8.ofNat (m + 128)) = false := by decide
  exact hall _ (Nat.mod_lt m (by decide))

/-- An ASCII character is its one byte. -/
theorem utf8EncodeChar_ascii {c : Char} (h : c.toNat < 128) :
    String.utf8EncodeChar c = [UInt8.ofNat c.toNat] := by
  unfold String.utf8EncodeChar
  exact if_pos (Nat.le_of_lt_succ h)

/-- A byte from 128 on stays so as a UInt8. -/
theorem le_toNat_ofNat {n : ℕ} (hn : n < 256) (h : 128 ≤ n) : 128 ≤ (UInt8.ofNat n).toNat := by
  rw [UInt8.toNat_ofNat', Nat.mod_eq_of_lt hn]
  exact h

/-- No byte of a character that is not ASCII is. -/
theorem le_of_mem_utf8EncodeChar {c : Char} {b : UInt8} (h : 128 ≤ c.toNat)
    (hb : b ∈ String.utf8EncodeChar c) : 128 ≤ b.toNat := by
  unfold String.utf8EncodeChar at hb
  dsimp only at hb
  change b ∈ if c.toNat ≤ 127 then _ else _ at hb
  rw [if_neg (Nat.not_le_of_lt h)] at hb
  split at hb
  · simp only [List.mem_cons, List.not_mem_nil, or_false] at hb
    rcases hb with rfl | rfl <;> exact le_toNat_ofNat (by omega) (by omega)
  split at hb
  · simp only [List.mem_cons, List.not_mem_nil, or_false] at hb
    rcases hb with rfl | rfl | rfl <;> exact le_toNat_ofNat (by omega) (by omega)
  · simp only [List.mem_cons, List.not_mem_nil, or_false] at hb
    rcases hb with rfl | rfl | rfl | rfl <;> exact le_toNat_ofNat (by omega) (by omega)

/-- No byte of a character but its first can be ASCII. -/
theorem le_of_mem_tail_utf8EncodeChar {c : Char} {b : UInt8} (hb : b ∈ (String.utf8EncodeChar c).tail) :
    128 ≤ b.toNat := by
  by_cases h : c.toNat < 128
  · rw [utf8EncodeChar_ascii h] at hb
    cases hb
  · exact le_of_mem_utf8EncodeChar (Nat.le_of_not_lt h) (List.mem_of_mem_tail hb)

/-- No byte of a character but its first can start one. -/
theorem runeStart_utf8EncodeChar {c : Char} {i : ℕ} {b : UInt8} (hi : (String.utf8EncodeChar c)[i + 1]? = some b) :
    runeStart b = false := by
  have hmem : b ∈ (String.utf8EncodeChar c).tail := by
    rw [← List.getElem?_tail] at hi
    exact List.mem_of_getElem? hi
  unfold String.utf8EncodeChar at hmem
  dsimp only at hmem
  split at hmem
  · simp at hmem
  split at hmem
  · rw [List.tail_cons, List.mem_singleton] at hmem
    exact hmem ▸ runeStart_continuation _
  split at hmem
  · simp only [List.tail_cons, List.mem_cons, List.not_mem_nil, or_false] at hmem
    rcases hmem with rfl | rfl <;> exact runeStart_continuation _
  · simp only [List.tail_cons, List.mem_cons, List.not_mem_nil, or_false] at hmem
    rcases hmem with rfl | rfl | rfl <;> exact runeStart_continuation _

/-- A text cut where a character can start is a text. -/
theorem Valid.take {bytes : List UInt8} (h : Valid bytes) {n : ℕ} (hn : n < bytes.length)
    (hstart : n = 0 ∨ runeStart (bytes[n]?.getD 0) = true) : Valid (bytes.take n) := by
  obtain ⟨characters, rfl⟩ := h
  induction characters generalizing n with
  | nil => simp at hn
  | cons c rest ih =>
    rw [List.flatMap_cons] at hn hstart ⊢
    by_cases hwithin : n < (String.utf8EncodeChar c).length
    · cases n with
      | zero => exact ⟨[], rfl⟩
      | succ n =>
        rw [List.getElem?_append_left hwithin, List.getElem?_eq_getElem hwithin, Option.getD_some] at hstart
        have hstop := runeStart_utf8EncodeChar (List.getElem?_eq_getElem hwithin)
        exact absurd (hstop ▸ hstart) (by simp)
    · have hle := Nat.le_of_not_lt hwithin
      rw [List.length_append] at hn
      have hrest : n - (String.utf8EncodeChar c).length < (rest.flatMap String.utf8EncodeChar).length := by omega
      have hstart' : n - (String.utf8EncodeChar c).length = 0 ∨ runeStart
          ((rest.flatMap String.utf8EncodeChar)[n - (String.utf8EncodeChar c).length]?.getD 0) = true := by
        rcases hstart with rfl | hstart
        · exact .inl (Nat.zero_sub _)
        · rw [List.getElem?_append_right hle] at hstart
          exact .inr hstart
      obtain ⟨characters, hcharacters⟩ := ih hrest hstart'
      refine ⟨c :: characters, ?_⟩
      rw [List.flatMap_cons, ← hcharacters, List.take_append, List.take_of_length_le hle]

end Boundaries

end Utf8
