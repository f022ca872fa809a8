import Mathlib.Order.Lattice
import SolidTrace.Lib.ByteOrder

/-!
# Batch ids

A batch's id is a UUIDv7: 48 bits of milliseconds, the version nibble, and random bits around
the two RFC 9562 variant bits. Ids compare bytewise. `newLogBatchID` draws one from a time, and
`nextLogBatchID` adds one to an id's random bits from the last byte on, which goes as far as
the six random bits beside the variant.
-/

namespace SolidTrace.Storage

/-- A 16-byte id. -/
@[ext] structure UUID where
  bytes : List UInt8
  length_bytes : bytes.length = 16
deriving Repr

namespace UUID

/-- The number an id's bytes write. -/
def value (id : UUID) : ℕ := ByteOrder.value id.bytes

/-- Ids with the same value are one. -/
theorem value_injective : Function.Injective value := by
  intro a b hvalue
  exact UUID.ext (ByteOrder.value_injective a.bytes b.bytes
    (a.length_bytes.trans b.length_bytes.symm) hvalue)

/-- Ids are ordered as the numbers their bytes write. -/
instance : LinearOrder UUID := LinearOrder.lift' value value_injective

/-- Ids are ordered by their values. -/
theorem lt_iff_value_lt (a b : UUID) : a < b ↔ a.value < b.value := Iff.rfl

/-- The order of ids is `bytes.Compare` on their bytes. -/
theorem compareBytes_eq_gt_iff (a b : UUID) :
    ByteOrder.compareBytes a.bytes b.bytes = .gt ↔ b < a := by
  rw [ByteOrder.compareBytes_eq _ _ (a.length_bytes.trans b.length_bytes.symm),
    Nat.compare_eq_gt]
  exact (lt_iff_value_lt b a).symm

/-- The id whose bytes are all zero, `uuid.Nil`. -/
def Nil : UUID := ⟨List.replicate 16 0, rfl⟩

/-- The byte at a position. -/
def byte (id : UUID) (i : ℕ) : UInt8 := id.bytes.getD i 0

/-- The version nibble. -/
def version (id : UUID) : UInt8 := id.byte 6 >>> 4

/-- Byte 8 carries the RFC 9562 variant, binary 10, in its two high bits. -/
def isRFC9562 (id : UUID) : Bool := id.byte 8 &&& 0xc0 == 0x80

/-- The Unix milliseconds in the first 48 bits. -/
def milliseconds (id : UUID) : ℕ := ByteOrder.value (id.bytes.take 6)

/-- Every random bit from byte 8 on is set: the id is the last of its first eight bytes. -/
def atLimit (id : UUID) : Bool :=
  id.bytes.drop 8 == [0xbf, 0xff, 0xff, 0xff, 0xff, 0xff, 0xff, 0xff]

/-- An id as the sixteen bytes it holds. -/
theorem eq_bytes (id : UUID) : ∃ b₀ b₁ b₂ b₃ b₄ b₅ b₆ b₇ b₈ b₉ b₁₀ b₁₁ b₁₂ b₁₃ b₁₄ b₁₅,
    id.bytes = [b₀, b₁, b₂, b₃, b₄, b₅, b₆, b₇, b₈, b₉, b₁₀, b₁₁, b₁₂, b₁₃, b₁₄, b₁₅] := by
  obtain ⟨bytes, hlen⟩ := id
  match bytes, hlen with
  | [b₀, b₁, b₂, b₃, b₄, b₅, b₆, b₇, b₈, b₉, b₁₀, b₁₁, b₁₂, b₁₃, b₁₄, b₁₅], _ =>
    exact ⟨b₀, b₁, b₂, b₃, b₄, b₅, b₆, b₇, b₈, b₉, b₁₀, b₁₁, b₁₂, b₁₃, b₁₄, b₁₅, rfl⟩

/-- `uuid.Nil` is the least id. -/
theorem Nil_le (id : UUID) : Nil ≤ id := by
  change value Nil ≤ value id
  exact Nat.zero_le _

end UUID

/-- `uint64` of a signed millisecond count. -/
def uint64 (n : ℤ) : ℕ := (n % 2 ^ 64).toNat

/-- A UUIDv7 of a time in Unix milliseconds, its random bits read into `random`. -/
def newLogBatchID (random : UUID) (unixMilli : ℤ) : UUID where
  bytes := (((ByteOrder.bigEndian 8 (uint64 unixMilli)).drop 2 ++ random.bytes.drop 6).modify 6
    fun b => 0x70 ||| (b &&& 0x0f)).modify 8 fun b => 0x80 ||| (b &&& 0x3f)
  length_bytes := by simp [random.length_bytes]

/-- The id right after `id`: one more in its random bits, with its time and version kept. -/
def nextLogBatchID (id : UUID) : UUID where
  bytes :=
    -- the loop over bytes 15 down to 9, which returns at the first byte that does not wrap
    if (ByteOrder.increment (id.bytes.drop 9)).2 then
      id.bytes.take 8 ++ [0x80 ||| ((id.byte 8 + 1) &&& 0x3f)] ++
        (ByteOrder.increment (id.bytes.drop 9)).1
    else id.bytes.take 9 ++ (ByteOrder.increment (id.bytes.drop 9)).1
  length_bytes := by split <;> simp [id.length_bytes]

/-- An id's random bits after the variant byte, then the variant byte, then the rest. -/
theorem value_split (id : UUID) : id.value =
    (ByteOrder.value (id.bytes.take 8) * 256 + (id.byte 8).toNat) * 256 ^ 7 +
      ByteOrder.value (id.bytes.drop 9) := by
  obtain ⟨b₀, b₁, b₂, b₃, b₄, b₅, b₆, b₇, b₈, b₉, b₁₀, b₁₁, b₁₂, b₁₃, b₁₄, b₁₅, hid⟩ := id.eq_bytes
  simp only [UUID.value, UUID.byte, hid, ByteOrder.value, List.take_succ_cons, List.take_zero,
    List.drop_succ_cons, List.drop_zero, List.length_cons, List.length_nil, List.getD_cons_succ,
    List.getD_cons_zero]
  ring

/-- A drawn id has version 7. -/
theorem newLogBatchID_version (random : UUID) (unixMilli : ℤ) :
    (newLogBatchID random unixMilli).version = 7 := by
  obtain ⟨b₀, b₁, b₂, b₃, b₄, b₅, b₆, b₇, b₈, b₉, b₁₀, b₁₁, b₁₂, b₁₃, b₁₄, b₁₅, hid⟩ :=
    random.eq_bytes
  have hnibble : ∀ b : UInt8, (0x70 ||| (b &&& 0x0f)) >>> 4 = 7 := by
    rintro ⟨b⟩
    revert b
    decide
  simp [UUID.version, UUID.byte, newLogBatchID, hid, ByteOrder.bigEndian, hnibble]

/-- A drawn id carries the RFC 9562 variant. -/
theorem newLogBatchID_isRFC9562 (random : UUID) (unixMilli : ℤ) :
    (newLogBatchID random unixMilli).isRFC9562 = true := by
  obtain ⟨b₀, b₁, b₂, b₃, b₄, b₅, b₆, b₇, b₈, b₉, b₁₀, b₁₁, b₁₂, b₁₃, b₁₄, b₁₅, hid⟩ :=
    random.eq_bytes
  have hvariant : ∀ b : UInt8, (0x80 ||| (b &&& 0x3f)) &&& 0xc0 = 0x80 := by
    rintro ⟨b⟩
    revert b
    decide
  simp [UUID.isRFC9562, UUID.byte, newLogBatchID, hid, ByteOrder.bigEndian, hvariant]

/-- A drawn id carries the low 48 bits of its time. -/
theorem newLogBatchID_milliseconds (random : UUID) (unixMilli : ℤ) :
    (newLogBatchID random unixMilli).milliseconds = uint64 unixMilli % 2 ^ 48 := by
  have htake : (newLogBatchID random unixMilli).bytes.take 6 =
      ByteOrder.bigEndian 6 (uint64 unixMilli) := by
    obtain ⟨b₀, b₁, b₂, b₃, b₄, b₅, b₆, b₇, b₈, b₉, b₁₀, b₁₁, b₁₂, b₁₃, b₁₄, b₁₅, hid⟩ :=
      random.eq_bytes
    simp [newLogBatchID, hid, ByteOrder.bigEndian]
  rw [UUID.milliseconds, htake, ByteOrder.value_bigEndian]
  norm_num

/-- A drawn id comes after `uuid.Nil`, by its version. -/
theorem Nil_lt_of_version (id : UUID) (hversion : id.version = 7) : UUID.Nil < id := by
  refine lt_of_le_of_ne id.Nil_le ?_
  rintro rfl
  exact absurd hversion (by decide)

/-- The next id keeps the version. -/
theorem nextLogBatchID_version (id : UUID) : (nextLogBatchID id).version = id.version := by
  obtain ⟨b₀, b₁, b₂, b₃, b₄, b₅, b₆, b₇, b₈, b₉, b₁₀, b₁₁, b₁₂, b₁₃, b₁₄, b₁₅, hid⟩ := id.eq_bytes
  simp only [UUID.version, UUID.byte, nextLogBatchID, hid]
  split <;> rfl

/-- The next id keeps the milliseconds. -/
theorem nextLogBatchID_milliseconds (id : UUID) :
    (nextLogBatchID id).milliseconds = id.milliseconds := by
  obtain ⟨b₀, b₁, b₂, b₃, b₄, b₅, b₆, b₇, b₈, b₉, b₁₀, b₁₁, b₁₂, b₁₃, b₁₄, b₁₅, hid⟩ := id.eq_bytes
  simp only [UUID.milliseconds, nextLogBatchID, hid]
  split <;> rfl

/-- The next id keeps the variant. -/
theorem nextLogBatchID_isRFC9562 (id : UUID) (hvariant : id.isRFC9562 = true) :
    (nextLogBatchID id).isRFC9562 = true := by
  obtain ⟨b₀, b₁, b₂, b₃, b₄, b₅, b₆, b₇, b₈, b₉, b₁₀, b₁₁, b₁₂, b₁₃, b₁₄, b₁₅, hid⟩ := id.eq_bytes
  have hbyte : ∀ b : UInt8, (0x80 ||| ((b + 1) &&& 0x3f)) &&& 0xc0 = 0x80 := by
    rintro ⟨b⟩
    revert b
    decide
  simp only [UUID.isRFC9562, UUID.byte, nextLogBatchID, hid] at hvariant ⊢
  split
  · simp [hbyte]
  · exact hvariant

/-- Beside the variant bits, the variant byte goes up by one, or from its last value to its first. -/
private theorem variantByte_next (b : UInt8) (hvariant : b &&& 0xc0 = 0x80) :
    (0x80 ||| ((b + 1) &&& 0x3f)).toNat = if b = 0xbf then 0x80 else b.toNat + 1 := by
  obtain ⟨b⟩ := b
  revert b
  decide

/-- Whether an id is at its limit, in terms of the carry out of its last seven bytes. -/
theorem atLimit_iff (id : UUID) : id.atLimit = true ↔
    id.byte 8 = 0xbf ∧ (ByteOrder.increment (id.bytes.drop 9)).2 = true := by
  obtain ⟨b₀, b₁, b₂, b₃, b₄, b₅, b₆, b₇, b₈, b₉, b₁₀, b₁₁, b₁₂, b₁₃, b₁₄, b₁₅, hid⟩ := id.eq_bytes
  rw [ByteOrder.increment_carries_iff]
  simp [UUID.atLimit, UUID.byte, hid]

/-- The number of a next id whose last seven bytes did not all wrap. -/
private theorem value_nextLogBatchID_of_not_carry (id : UUID)
    (hcarry : (ByteOrder.increment (id.bytes.drop 9)).2 = false) :
    (nextLogBatchID id).value = id.value + 1 := by
  have hinc := ByteOrder.value_increment (id.bytes.drop 9)
  simp only [hcarry, Bool.false_eq_true, if_false] at hinc
  have hid : id.value = ByteOrder.value (id.bytes.take 9 ++ id.bytes.drop 9) := by
    rw [List.take_append_drop, UUID.value]
  have hbytes : (nextLogBatchID id).bytes =
      id.bytes.take 9 ++ (ByteOrder.increment (id.bytes.drop 9)).1 := by
    simp [nextLogBatchID, hcarry]
  rw [UUID.value, hbytes, hid, ByteOrder.value_append, ByteOrder.value_append, hinc,
    ByteOrder.length_increment]
  omega

/-- The number of a next id whose last seven bytes all wrapped. -/
private theorem value_nextLogBatchID_of_carry (id : UUID)
    (hcarry : (ByteOrder.increment (id.bytes.drop 9)).2 = true) :
    (nextLogBatchID id).value = (ByteOrder.value (id.bytes.take 8) * 256 +
      (0x80 ||| ((id.byte 8 + 1) &&& 0x3f)).toNat) * 256 ^ 7 := by
  have hinc := ByteOrder.value_increment (id.bytes.drop 9)
  simp only [hcarry, if_true] at hinc
  have hbytes : (nextLogBatchID id).bytes = id.bytes.take 8 ++
      [0x80 ||| ((id.byte 8 + 1) &&& 0x3f)] ++ (ByteOrder.increment (id.bytes.drop 9)).1 := by
    simp [nextLogBatchID, hcarry]
  rw [UUID.value, hbytes, ByteOrder.value_append, ByteOrder.value_append, hinc.2,
    ByteOrder.length_increment, List.length_drop, id.length_bytes]
  simp [ByteOrder.value]

/-- The next id comes after the id, unless the id is at its limit: then it wraps to below it. -/
theorem lt_nextLogBatchID_iff (id : UUID) (hvariant : id.isRFC9562 = true) :
    id < nextLogBatchID id ↔ id.atLimit = false := by
  have hbyte : id.byte 8 &&& 0xc0 = 0x80 := by simpa [UUID.isRFC9562] using hvariant
  rw [UUID.lt_iff_value_lt, ← Bool.not_eq_true, atLimit_iff]
  cases hcarry : (ByteOrder.increment (id.bytes.drop 9)).2 with
  | false =>
    rw [value_nextLogBatchID_of_not_carry id hcarry]
    simp
  | true =>
    rw [value_nextLogBatchID_of_carry id hcarry, variantByte_next _ hbyte, value_split id]
    have htail := ByteOrder.value_lt (id.bytes.drop 9)
    rw [List.length_drop, id.length_bytes] at htail
    by_cases hlast : id.byte 8 = 0xbf
    · have hnat : (0xbf : UInt8).toNat = 0xbf := rfl
      simp only [hlast, if_true, hnat, and_self, not_true_eq_false, iff_false, not_lt]
      omega
    · simp only [hlast, if_false, false_and, not_false_eq_true, iff_true]
      omega

end SolidTrace.Storage
