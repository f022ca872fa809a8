import Mathlib.Data.List.DropRight
import Mathlib.Data.Nat.Digits.Defs
import Mathlib.Tactic.IntervalCases
import Mathlib.Tactic.Ring

/-!
# Numbers written in digits

Digits of a fixed or the least number, most significant first, the characters they are written with,
and base 64. What is written is read back.
-/

namespace Digits

section Numbers

/-- The number that digits write. -/
def value (base : ℕ) (ds : List ℕ) : ℕ := ds.foldl (fun n d => n * base + d) 0

/-- The last digits of a number, so many of them. -/
def fixed (base : ℕ) : ℕ → ℕ → List ℕ
  | 0, _ => []
  | width + 1, n => fixed base width (n / base) ++ [n % base]

/-- A number written at a fixed width takes exactly that many digits. -/
@[simp]
theorem length_fixed (base width n : ℕ) : (fixed base width n).length = width := by
  induction width generalizing n with
  | zero => rfl
  | succ width ih => simp [fixed, ih]

/-- Every digit written at a fixed width is a digit of the base. -/
theorem fixed_lt {base : ℕ} (hbase : 0 < base) (width n : ℕ) : ∀ d ∈ fixed base width n, d < base := by
  induction width generalizing n with
  | zero => simp [fixed]
  | succ width ih =>
    intro d hd
    rcases List.mem_append.1 hd with hd | hd
    · exact ih (n / base) d hd
    · rw [List.mem_singleton.1 hd]
      exact Nat.mod_lt n hbase

/-- One more digit at the end multiplies what stands before it by the base. -/
theorem value_append_singleton (base : ℕ) (ds : List ℕ) (d : ℕ) :
    value base (ds ++ [d]) = value base ds * base + d := by
  simp [value]

/-- A number read in two parts: the first is moved left by the length of the second. -/
theorem value_append (base : ℕ) (ds es : List ℕ) :
    value base (ds ++ es) = value base ds * base ^ es.length + value base es := by
  induction es using List.reverseRecOn with
  | nil => simp [value]
  | append_singleton es d ih =>
    rw [← List.append_assoc, value_append_singleton, value_append_singleton, ih, List.length_append,
      List.length_singleton, pow_succ]
    ring

/-- Digits of a base read back below the base's power. -/
theorem value_lt {base : ℕ} {ds : List ℕ} (h : ∀ d ∈ ds, d < base) : value base ds < base ^ ds.length := by
  induction ds using List.reverseRecOn with
  | nil => simp [value]
  | append_singleton ds d ih =>
    have hd := h d (by simp)
    have hds := ih fun e he => h e (List.mem_append_left _ he)
    rw [value_append_singleton, List.length_append, List.length_singleton, pow_succ]
    nlinarith

/-- A number's last digits write it, if it has no others. -/
theorem value_fixed {base width n : ℕ} (h : n < base ^ width) : value base (fixed base width n) = n := by
  induction width generalizing n with
  | zero =>
    simp only [pow_zero, Nat.lt_one_iff] at h
    simp [fixed, value, h]
  | succ width ih =>
    have hdiv : n / base < base ^ width := by
      rw [pow_succ] at h
      exact Nat.div_lt_of_lt_mul (by rwa [mul_comm])
    rw [fixed, value_append_singleton, ih hdiv, mul_comm]
    exact Nat.div_add_mod n base

/-- Zeros at the end are powers of the base. -/
theorem value_append_zeros (base : ℕ) (ds : List ℕ) (k : ℕ) :
    value base (ds ++ List.replicate k 0) = value base ds * base ^ k := by
  induction k with
  | zero => simp
  | succ k ih =>
    rw [List.replicate_succ', ← List.append_assoc, value_append_singleton, ih, pow_succ]
    ring

/-- Digits without the zeros at their end. -/
def trimmed (ds : List ℕ) : List ℕ := ds.rdropWhile (· = 0)

/-- Cutting the zeros off the end divides by their power of the base. -/
theorem value_trimmed (base : ℕ) (ds : List ℕ) :
    value base (trimmed ds) * base ^ (ds.length - (trimmed ds).length) = value base ds := by
  have hsplit : trimmed ds ++ ds.rtakeWhile (· = 0) = ds := List.rdropWhile_append_rtakeWhile
  have hzeros : ds.rtakeWhile (· = 0) = List.replicate (ds.rtakeWhile (· = 0)).length 0 := by
    rw [List.eq_replicate_iff]
    exact ⟨rfl, fun d hd => by simpa using List.mem_rtakeWhile_imp hd⟩
  have hlength := congrArg List.length hsplit
  rw [List.length_append] at hlength
  rw [← value_append_zeros, show ds.length - (trimmed ds).length = (ds.rtakeWhile (· = 0)).length by
    omega, ← hzeros, hsplit]

/-- Only the end of the digits is cut. -/
theorem trimmed_prefix (ds : List ℕ) : trimmed ds <+: ds := List.rdropWhile_prefix _ ds

/-- The digits of a number, at least one. -/
def least (base n : ℕ) : List ℕ := if n = 0 then [0] else (Nat.digits base n).reverse

/-- Mathlib's digits stand the other way round. -/
theorem value_reverse (base : ℕ) (ds : List ℕ) : value base ds.reverse = Nat.ofDigits base ds := by
  induction ds with
  | nil => rfl
  | cons d rest ih =>
    rw [List.reverse_cons, value_append_singleton, ih, Nat.ofDigits_cons, mul_comm, add_comm]

/-- The shortest digits of a number read back as the number. -/
theorem value_least (base n : ℕ) : value base (least base n) = n := by
  unfold least
  split
  next h => simp [value, h]
  · rw [value_reverse, Nat.ofDigits_digits]

/-- The shortest digits are digits of the base. -/
theorem least_lt {base : ℕ} (hbase : 1 < base) (n : ℕ) : ∀ d ∈ least base n, d < base := by
  unfold least
  split
  · intro d hd
    rw [List.mem_singleton.1 hd]
    omega
  · intro d hd
    exact Nat.digits_lt_base hbase (List.mem_reverse.1 hd)

/-- A number has at least one digit, zero too. -/
theorem least_ne_nil (base n : ℕ) : least base n ≠ [] := by
  unfold least
  split
  · simp
  next h => simpa [Nat.digits_eq_nil_iff_eq_zero] using h

end Numbers

section Characters

/-- A digit up to 15 as a character. -/
def char (d : ℕ) : Char := if d < 10 then Char.ofNat (48 + d) else Char.ofNat (87 + d)

def decimal (c : Char) : Option ℕ := if '0' ≤ c ∧ c ≤ '9' then some (c.toNat - 48) else none

/-- A hexadecimal digit, of either case. -/
def hexadecimal (c : Char) : Option ℕ :=
  if '0' ≤ c ∧ c ≤ '9' then some (c.toNat - 48)
  else if 'a' ≤ c ∧ c ≤ 'f' then some (c.toNat - 87)
  else if 'A' ≤ c ∧ c ≤ 'F' then some (c.toNat - 55)
  else none

/-- A decimal digit's character is read back as the digit. -/
theorem decimal_char {d : ℕ} (h : d < 10) : decimal (char d) = some d := by
  interval_cases d <;> decide

/-- A hexadecimal digit's character is read back as the digit. -/
theorem hexadecimal_char {d : ℕ} (h : d < 16) : hexadecimal (char d) = some d := by
  interval_cases d <;> decide

/-- The digits that characters are. -/
def read (digit : Char → Option ℕ) (cs : List Char) : Option (List ℕ) := cs.mapM digit

/-- Digits whose characters are each read back are read back all together. -/
theorem read_map {digit : Char → Option ℕ} {ds : List ℕ} (h : ∀ d ∈ ds, digit (char d) = some d) :
    read digit (ds.map char) = some ds := by
  induction ds with
  | nil => rfl
  | cons d rest ih =>
    have hrest := ih fun d hd => h d (.tail _ hd)
    simp only [read, List.map_cons, List.mapM_cons, h d (.head _)] at hrest ⊢
    simp [hrest]

end Characters

section Base64

/-- Bytes as numbers of six bits, the last filled up with zeros. -/
def sextets : List ℕ → List ℕ
  | [] => []
  | [a] => [a / 4, a % 4 * 16]
  | [a, b] => [a / 4, a % 4 * 16 + b / 16, b % 16 * 4]
  | a :: b :: c :: rest =>
    (a / 4) :: (a % 4 * 16 + b / 16) :: (b % 16 * 4 + c / 64) :: (c % 64) :: sextets rest

/-- The bytes that numbers of six bits hold. One number alone holds none. -/
def octets : List ℕ → Option (List ℕ)
  | [] => some []
  | [_] => none
  | [s, t] => some [s * 4 + t / 16]
  | [s, t, u] => some [s * 4 + t / 16, t % 16 * 16 + u / 4]
  | s :: t :: u :: v :: rest =>
    (octets rest).map fun bytes =>
      (s * 4 + t / 16) :: (t % 16 * 16 + u / 4) :: (u % 4 * 64 + v) :: bytes

/-- Bytes cut into six bits and put together again are the bytes. -/
theorem octets_sextets {bytes : List ℕ} (h : ∀ b ∈ bytes, b < 256) :
    octets (sextets bytes) = some bytes := by
  fun_induction sextets bytes with
  | case1 => rfl
  | case2 a =>
    have ha := h a (by simp)
    simp only [octets, Option.some.injEq, List.cons.injEq, and_true]
    omega
  | case3 a b =>
    have ha := h a (by simp)
    have hb := h b (by simp)
    simp only [octets, Option.some.injEq, List.cons.injEq, and_true]
    omega
  | case4 a b c rest ih =>
    have ha := h a (by simp)
    have hb := h b (by simp)
    have hc := h c (by simp)
    have hrest := ih fun d hd => h d (by simp [hd])
    simp only [octets, hrest, Option.map_some, Option.some.injEq, List.cons.injEq, and_true]
    omega

/-- Every sextet is six bits wide. -/
theorem sextets_lt {bytes : List ℕ} (h : ∀ b ∈ bytes, b < 256) : ∀ s ∈ sextets bytes, s < 64 := by
  fun_induction sextets bytes with
  | case1 => simp
  | case2 a =>
    have ha := h a (by simp)
    simp only [List.mem_cons, List.not_mem_nil, or_false, forall_eq_or_imp, forall_eq]
    omega
  | case3 a b =>
    have ha := h a (by simp)
    have hb := h b (by simp)
    simp only [List.mem_cons, List.not_mem_nil, or_false, forall_eq_or_imp, forall_eq]
    omega
  | case4 a b c rest ih =>
    have ha := h a (by simp)
    have hb := h b (by simp)
    have hc := h c (by simp)
    have hrest := ih fun d hd => h d (by simp [hd])
    simp only [List.mem_cons, forall_eq_or_imp]
    refine ⟨by omega, by omega, by omega, by omega, hrest⟩

/-- The characters of base 64, for URLs. -/
def alphabet : List Char :=
  "ABCDEFGHIJKLMNOPQRSTUVWXYZabcdefghijklmnopqrstuvwxyz0123456789-_".toList

def encodeChar (s : ℕ) : Char := alphabet.getD s 'A'

def decodeChar (c : Char) : Option ℕ := alphabet.idxOf? c

/-- The characters one by one, which is what evaluates well. -/
theorem alphabet_eq :
    alphabet = ['A', 'B', 'C', 'D', 'E', 'F', 'G', 'H', 'I', 'J', 'K', 'L', 'M', 'N', 'O', 'P', 'Q',
      'R', 'S', 'T', 'U', 'V', 'W', 'X', 'Y', 'Z', 'a', 'b', 'c', 'd', 'e', 'f', 'g', 'h', 'i', 'j',
      'k', 'l', 'm', 'n', 'o', 'p', 'q', 'r', 's', 't', 'u', 'v', 'w', 'x', 'y', 'z', '0', '1', '2',
      '3', '4', '5', '6', '7', '8', '9', '-', '_'] :=
  String.toList_ofList

/-- Each of the sixty-four characters is read back as its sextet. -/
theorem decodeChar_encodeChar : ∀ s < 64, decodeChar (encodeChar s) = some s := by
  simp only [decodeChar, encodeChar, alphabet_eq]
  decide +kernel

/-- Bytes in base 64, without padding. -/
def encode64 (bytes : List ℕ) : List Char := (sextets bytes).map encodeChar

/-- The bytes of base 64 without padding. Line ends are left out. -/
def decode64 (text : List Char) : Option (List ℕ) :=
  ((text.filter fun c => c ≠ '\r' ∧ c ≠ '\n').mapM decodeChar).bind octets

/-- A whole text of sextets is read back. -/
theorem mapM_encodeChar {ss : List ℕ} (h : ∀ s ∈ ss, s < 64) :
    (ss.map encodeChar).mapM decodeChar = some ss := by
  induction ss with
  | nil => rfl
  | cons s rest ih =>
    have hrest := ih fun s hs => h s (.tail _ hs)
    simp [decodeChar_encodeChar s (h s (.head _)), hrest]

/-- No sextet is written as a line break, so none is dropped when the text is read. -/
theorem encodeChar_printed {s : ℕ} (h : s < 64) : encodeChar s ≠ '\r' ∧ encodeChar s ≠ '\n' := by
  have hdecode := decodeChar_encodeChar s h
  constructor
  · intro heq
    rw [heq] at hdecode
    have hnone : decodeChar '\r' = none := by
      rw [decodeChar, alphabet_eq]
      decide
    simp [hnone] at hdecode
  · intro heq
    rw [heq] at hdecode
    have hnone : decodeChar '\n' = none := by
      rw [decodeChar, alphabet_eq]
      decide
    simp [hnone] at hdecode

/-- What base 64 encodes is decoded. -/
theorem decode64_encode64 {bytes : List ℕ} (h : ∀ b ∈ bytes, b < 256) :
    decode64 (encode64 bytes) = some bytes := by
  have hlt := sextets_lt h
  have hfilter : ((encode64 bytes).filter fun c => c ≠ '\r' ∧ c ≠ '\n') = encode64 bytes := by
    rw [List.filter_eq_self]
    intro c hc
    obtain ⟨s, hs, rfl⟩ := List.mem_map.1 hc
    simpa using encodeChar_printed (hlt s hs)
  rw [decode64, hfilter, encode64, mapM_encodeChar hlt]
  exact octets_sextets h

end Base64

end Digits
