import Mathlib.Data.Nat.Basic
import Mathlib.Tactic.Ring
import Mathlib.Tactic.Linarith

/-!
# Byte strings as big-endian numbers

Keys of equal length compare bytewise exactly as the numbers they write in base 256 do.
The file gives that number, the bytewise comparison, the bytes of a number, and the
increment that carries from the last byte on, each with its effect on the number.
-/

namespace ByteOrder

/-- The number a byte string writes, its first byte the most significant. -/
def value : List UInt8 → ℕ
  | [] => 0
  | b :: rest => b.toNat * 256 ^ rest.length + value rest

/-- Bytewise comparison, a proper prefix first. -/
def compareBytes : List UInt8 → List UInt8 → Ordering
  | [], [] => .eq
  | [], _ :: _ => .lt
  | _ :: _, [] => .gt
  | a :: as, b :: bs => if a < b then .lt else if b < a then .gt else compareBytes as bs

/-- The last `count` bytes of a number, most significant first. -/
def bigEndian : ℕ → ℕ → List UInt8
  | 0, _ => []
  | count + 1, n => UInt8.ofNat (n / 256 ^ count) :: bigEndian count n

/-- Add one from the last byte on. The flag says that every byte wrapped to zero. -/
def increment : List UInt8 → List UInt8 × Bool
  | [] => ([], true)
  | b :: rest =>
    if (increment rest).2 then ((b + 1) :: (increment rest).1, b + 1 == 0)
    else (b :: (increment rest).1, false)

/-- A string of `n` bytes writes a number below `256 ^ n`. -/
theorem value_lt (bytes : List UInt8) : value bytes < 256 ^ bytes.length := by
  induction bytes with
  | nil => simp [value]
  | cons b rest ih =>
    have hb : b.toNat < 256 := b.toNat_lt
    rw [value, List.length_cons, pow_succ]
    nlinarith [Nat.one_le_pow rest.length 256 (by norm_num)]

/-- Concatenation shifts the first number past the second's bytes. -/
theorem value_append (left right : List UInt8) :
    value (left ++ right) = value left * 256 ^ right.length + value right := by
  induction left with
  | nil => simp [value]
  | cons b rest ih =>
    rw [List.cons_append, value, ih, value, List.length_append, pow_add]
    ring

/-- Equal-length strings are told apart by their numbers. -/
theorem value_injective (left right : List UInt8) (hlen : left.length = right.length)
    (hvalue : value left = value right) : left = right := by
  induction left generalizing right with
  | nil => exact (List.eq_nil_of_length_eq_zero hlen.symm).symm
  | cons a as ih =>
    cases right with
    | nil => simp at hlen
    | cons b bs =>
      have htail : as.length = bs.length := by simpa using hlen
      have ha := value_lt as
      have hb := value_lt bs
      rw [value, value, htail] at hvalue
      rw [htail] at ha
      have hhead : a.toNat = b.toNat := by
        by_contra hne
        rcases Nat.lt_or_gt_of_ne hne with hlt | hgt
        · have : (a.toNat + 1) * 256 ^ bs.length ≤ b.toNat * 256 ^ bs.length :=
            Nat.mul_le_mul_right _ hlt
          rw [Nat.add_mul] at this
          omega
        · have : (b.toNat + 1) * 256 ^ bs.length ≤ a.toNat * 256 ^ bs.length :=
            Nat.mul_le_mul_right _ hgt
          rw [Nat.add_mul] at this
          omega
      rw [hhead] at hvalue
      rw [UInt8.toNat_inj.mp hhead, ih bs htail (Nat.add_left_cancel hvalue)]

/-- Bytewise comparison of equal-length strings is the comparison of their numbers. -/
theorem compareBytes_eq (left right : List UInt8) (hlen : left.length = right.length) :
    compareBytes left right = compare (value left) (value right) := by
  induction left generalizing right with
  | nil =>
    obtain rfl := List.eq_nil_of_length_eq_zero hlen.symm
    simp [compareBytes, value]
  | cons a as ih =>
    cases right with
    | nil => simp at hlen
    | cons b bs =>
      have htail : as.length = bs.length := by simpa using hlen
      have ha : value as < 256 ^ bs.length := htail ▸ value_lt as
      have hb := value_lt bs
      rw [compareBytes, value, value, htail]
      by_cases hlt : a < b
      · rw [if_pos hlt]
        have : a.toNat + 1 ≤ b.toNat := UInt8.lt_iff_toNat_lt.mp hlt
        exact (Nat.compare_eq_lt.mpr (by nlinarith)).symm
      · rw [if_neg hlt]
        by_cases hgt : b < a
        · rw [if_pos hgt]
          have : b.toNat + 1 ≤ a.toNat := UInt8.lt_iff_toNat_lt.mp hgt
          exact (Nat.compare_eq_gt.mpr (by nlinarith)).symm
        · rw [if_neg hgt, ih bs htail]
          have heq : a.toNat = b.toNat := by
            rw [UInt8.lt_iff_toNat_lt] at hlt hgt
            omega
          rw [heq, Nat.compare_eq_ite_lt, Nat.compare_eq_ite_lt]
          simp

/-- A number's byte string has the asked length. -/
@[simp] theorem length_bigEndian (count n : ℕ) : (bigEndian count n).length = count := by
  induction count with
  | zero => rfl
  | succ count ih => simp [bigEndian, ih]

/-- The last `count` bytes of a number write it modulo `256 ^ count`. -/
theorem value_bigEndian (count n : ℕ) : value (bigEndian count n) = n % 256 ^ count := by
  induction count with
  | zero => simp [bigEndian, value, Nat.mod_one]
  | succ count ih =>
    have hbyte : (UInt8.ofNat (n / 256 ^ count)).toNat = n / 256 ^ count % 256 := by simp
    rw [bigEndian, value, ih, length_bigEndian, hbyte, pow_succ, Nat.mod_mul,
      Nat.mul_comm (256 ^ count), Nat.add_comm]

/-- Incrementing keeps the length. -/
@[simp] theorem length_increment (bytes : List UInt8) :
    (increment bytes).1.length = bytes.length := by
  induction bytes with
  | nil => rfl
  | cons b rest ih =>
    rw [increment]
    cases (increment rest).2 <;> simp [ih]

/-- The increment carries out of the first byte exactly when every byte is full. -/
theorem increment_carries_iff (bytes : List UInt8) :
    (increment bytes).2 = true ↔ ∀ b ∈ bytes, b = 255 := by
  have hwrap : ∀ b : UInt8, b + 1 = 0 ↔ b = 255 := by
    intro b
    constructor
    · intro h
      have hlt : b.toNat < 256 := b.toNat_lt
      have := congrArg UInt8.toNat h
      simp only [UInt8.toNat_add, UInt8.toNat_one, UInt8.toNat_zero] at this
      exact UInt8.toNat_inj.mp (show b.toNat = 255 by omega)
    · rintro rfl
      rfl
  induction bytes with
  | nil => simp [increment]
  | cons b rest ih =>
    have hstep : (increment (b :: rest)).2 = ((increment rest).2 && (b + 1 == 0)) := by
      rw [increment]
      cases (increment rest).2 <;> rfl
    rw [hstep, Bool.and_eq_true, beq_iff_eq, hwrap b, List.forall_mem_cons, and_comm]
    exact and_congr_right fun _ => ih

/-- Without a carry out of the first byte, the increment adds one; with one, every byte was full
and every byte is now zero. -/
theorem value_increment (bytes : List UInt8) :
    if (increment bytes).2 then
      value bytes + 1 = 256 ^ bytes.length ∧ value (increment bytes).1 = 0
    else value (increment bytes).1 = value bytes + 1 := by
  induction bytes with
  | nil => simp [increment, value]
  | cons b rest ih =>
    rw [increment]
    cases hrest : (increment rest).2 with
    | false =>
      rw [hrest] at ih
      simp only [Bool.false_eq_true, if_false] at ih ⊢
      rw [value, value, length_increment, ih]
      ring
    | true =>
      rw [hrest] at ih
      simp only [if_true] at ih ⊢
      obtain ⟨hfull, hzero⟩ := ih
      have hlt : b.toNat < 256 := b.toNat_lt
      by_cases hwrap : b + 1 = 0
      · have hb : b.toNat = 255 := by
          have := congrArg UInt8.toNat hwrap
          simp only [UInt8.toNat_add, UInt8.toNat_one, UInt8.toNat_zero] at this
          omega
        simp only [hwrap, beq_self_eq_true, if_true, value, hzero, hb, List.length_cons, pow_succ]
        constructor
        · omega
        · simp
      · have hb : (b + 1).toNat = b.toNat + 1 := by
          have hne : b.toNat ≠ 255 := by
            intro h
            exact hwrap (UInt8.toNat_inj.mp (by rw [UInt8.toNat_add, h]; rfl))
          rw [UInt8.toNat_add, UInt8.toNat_one, Nat.mod_eq_of_lt (by omega)]
        simp only [beq_iff_eq, hwrap, if_false, value, length_increment, hb, hzero]
        rw [Nat.add_mul]
        omega

end ByteOrder
