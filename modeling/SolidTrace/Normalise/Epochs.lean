import Mathlib.Tactic.LinearCombination
import SolidTrace.Lib.Digits
import SolidTrace.Normalise.Fields

/-!
# Epochs are exact

A JSON number without an exponent is read as the whole nanoseconds of that many of a unit of time, or
refused, and no step of reading it wraps an `int64`.
-/

namespace SolidTrace.Normalise

section Decimals

def IsDigit (b : UInt8) : Prop := 48 ≤ b ∧ b ≤ 57

/-- A JSON number without an exponent. -/
structure Decimal where
  negative : Bool
  whole : Bytes
  fraction : Option Bytes
  whole_ne : whole ≠ []
  whole_digits : ∀ b ∈ whole, IsDigit b
  /-- A whole part of more than a digit doesn't start with 0. -/
  whole_zero : whole.head? = some 48 → whole = [48]
  fraction_ne : ∀ f ∈ fraction, f ≠ []
  fraction_digits : ∀ f ∈ fraction, ∀ b ∈ f, IsDigit b

variable (n : Decimal)

/-- The number as JSON writes it. -/
def Decimal.text : Bytes :=
  (if n.negative then [45] else []) ++ n.whole ++ (n.fraction.elim [] fun f => dot :: f)

/-- The number that digits write. -/
def digitsValue (digits : Bytes) : ℕ := Digits.value 10 (digits.map fun b => b.toNat - 48)

def Decimal.sign : ℤ := if n.negative then -1 else 1

/-- The digits after the point. -/
def Decimal.places : Bytes := n.fraction.getD []

/-- The number. -/
def Decimal.value : ℚ :=
  n.sign * (digitsValue n.whole + digitsValue n.places / 10 ^ n.places.length)

/-- The number's whole part, with its sign. -/
def Decimal.signed : ℤ := n.sign * digitsValue n.whole

/-- A number cut toward zero. -/
def cutTowardZero (q : ℚ) : ℤ := if 0 ≤ q then ⌊q⌋ else ⌈q⌉

def InInt64 (n : ℤ) : Prop := minInt64 ≤ n ∧ n ≤ maxInt64

/-- A number whose whole part is a unit or more inside the times that an `int64` holds. -/
def Decimal.Fits (e : EpochUnit) : Prop :=
  minInt64.tdiv e.unit + 1 ≤ n.signed ∧ n.signed ≤ maxInt64.tdiv e.unit - 1

instance (e : EpochUnit) : Decidable (n.Fits e) := inferInstanceAs (Decidable (_ ∧ _))

end Decimals

section Digits

/-- Digits are read as their value. -/
theorem parseDigits_eq {digits : Bytes} (hne : digits ≠ []) (h : ∀ b ∈ digits, IsDigit b) :
    parseDigits digits = some (digitsValue digits) := by
  have hall : digits.all (fun b => 48 ≤ b ∧ b ≤ 57) = true := by
    simpa [List.all_eq_true, IsDigit] using h
  rw [parseDigits, if_pos ⟨hne, hall⟩, digitsValue, Digits.value, List.foldl_map]

/-- A digit is none of the other characters. -/
theorem IsDigit.ne {b c : UInt8} (h : IsDigit b) (hc : c < 48 ∨ 57 < c) : b ≠ c := by
  rintro rfl
  rcases hc with hc | hc
  · exact absurd h.1 (UInt8.not_le.2 hc)
  · exact absurd h.2 (UInt8.not_le.2 hc)

/-- The value of digits one after the other. -/
theorem digitsValue_append (a b : Bytes) :
    digitsValue (a ++ b) = digitsValue a * 10 ^ b.length + digitsValue b := by
  rw [digitsValue, List.map_append, Digits.value_append, List.length_map]
  rfl

/-- Digits have a value below their power of ten. -/
theorem digitsValue_lt {digits : Bytes} (h : ∀ b ∈ digits, IsDigit b) :
    digitsValue digits < 10 ^ digits.length := by
  have hdigits : ∀ d ∈ digits.map (fun b => b.toNat - 48), d < 10 := by
    intro d hd
    obtain ⟨b, hb, rfl⟩ := List.mem_map.1 hd
    have hle := UInt8.le_iff_toNat_le.1 (h b hb).2
    simp only [UInt8.reduceToNat] at hle
    omega
  have hlt := Digits.value_lt hdigits
  rwa [List.length_map] at hlt

/-- The digits of the places that are whole in a finer unit, zeros put after them. -/
theorem digitsValue_take {places : Bytes} (h : ∀ b ∈ places, IsDigit b) {digits : ℕ} (hdigits : digits ≤ 9) :
    (digitsValue ((places ++ List.replicate 9 48).take digits) : ℤ) =
      ⌊(digitsValue places / 10 ^ places.length * 10 ^ digits : ℚ)⌋ := by
  set padded := places ++ List.replicate 9 48 with hpadded
  have hlength : padded.length = places.length + 9 := by simp [hpadded]
  have hdrop : (padded.drop digits).length = places.length + 9 - digits := by rw [List.length_drop, hlength]
  have hsplit : digitsValue padded = digitsValue (padded.take digits) * 10 ^ (places.length + 9 - digits) +
      digitsValue (padded.drop digits) := by
    rw [← hdrop, ← digitsValue_append, List.take_append_drop]
  have hzeros : digitsValue padded = digitsValue places * 10 ^ 9 := by
    have hnone : digitsValue (List.replicate 9 48) = 0 := by decide
    rw [hpadded, digitsValue_append, List.length_replicate, hnone, Nat.add_zero]
  have hpaddedDigits : ∀ b ∈ padded.drop digits, IsDigit b := by
    intro b hb
    rcases List.mem_append.1 (List.mem_of_mem_drop hb) with hb | hb
    · exact h b hb
    · rw [List.eq_of_mem_replicate hb]
      exact ⟨by decide, by decide⟩
  have hrest := digitsValue_lt hpaddedDigits
  rw [hdrop] at hrest
  have hpow : (10 : ℚ) ^ (places.length + 9 - digits) * 10 ^ digits = 10 ^ places.length * 10 ^ 9 := by
    rw [← pow_add, ← pow_add]
    congr 1
    omega
  have hpos : (0 : ℚ) < 10 ^ (places.length + 9 - digits) := by positivity
  -- The places are what the taken digits write, and less than one of their last.
  have hvalue : (digitsValue places / 10 ^ places.length * 10 ^ digits : ℚ) =
      digitsValue (padded.take digits) +
        digitsValue (padded.drop digits) / 10 ^ (places.length + 9 - digits) := by
    have hcast : (digitsValue places * 10 ^ 9 : ℚ) =
        digitsValue (padded.take digits) * 10 ^ (places.length + 9 - digits) +
          digitsValue (padded.drop digits) := by
      exact_mod_cast hzeros.symm.trans hsplit
    rw [div_mul_eq_mul_div, eq_comm, eq_div_iff (by positivity), add_mul, div_mul_eq_mul_div,
      ← eq_sub_iff_add_eq', div_eq_iff hpos.ne']
    linear_combination (-(digitsValue places : ℚ)) * hpow - 10 ^ places.length * hcast
  symm
  rw [Int.floor_eq_iff, hvalue]
  constructor
  · have hnonneg : (0 : ℚ) ≤ digitsValue (padded.drop digits) / 10 ^ (places.length + 9 - digits) := by positivity
    push_cast
    linarith
  · have hlt : (digitsValue (padded.drop digits) / 10 ^ (places.length + 9 - digits) : ℚ) < 1 := by
      rw [div_lt_one hpos]
      exact_mod_cast hrest
    push_cast
    linarith

end Digits

section Parsing

variable (n : Decimal)

/-- A digit is neither a sign nor a dot. -/
theorem IsDigit.ne_sign {b : UInt8} (h : IsDigit b) : b ≠ 45 ∧ b ≠ 43 ∧ b ≠ dot :=
  ⟨h.ne (.inl (by decide)), h.ne (.inl (by decide)), h.ne (.inl (by decide))⟩

/-- Digits without a sign are read as a number when an `int64` holds it. -/
theorem parseInt_digits {digits : Bytes} (hne : digits ≠ []) (h : ∀ b ∈ digits, IsDigit b) :
    parseInt digits = (some (digitsValue digits : ℤ)).filter fun n => minInt64 ≤ n ∧ n ≤ maxInt64 := by
  obtain ⟨b, rest, rfl⟩ := List.exists_cons_of_ne_nil hne
  obtain ⟨hminus, hplus, -⟩ := (h b List.mem_cons_self).ne_sign
  unfold parseInt
  split
  case h_1 heq => exact absurd (List.cons.inj heq).1 hminus
  case h_2 heq => exact absurd (List.cons.inj heq).1 hplus
  case h_3 =>
    rw [parseDigits_eq hne h]
    rfl

/-- The bytes before the point. -/
def Decimal.wholeText : Bytes := (if n.negative then [45] else []) ++ n.whole

/-- A whole number is read when it fits an int64. -/
theorem parseInt_wholeText :
    parseInt n.wholeText = (some n.signed).filter fun n => minInt64 ≤ n ∧ n ≤ maxInt64 := by
  unfold Decimal.wholeText Decimal.signed Decimal.sign
  cases n.negative with
  | false =>
    rw [if_neg nofun, if_neg nofun, List.nil_append, one_mul]
    exact parseInt_digits n.whole_ne n.whole_digits
  | true =>
    rw [if_pos rfl, if_pos rfl, List.singleton_append, parseInt, parseDigits_eq n.whole_ne n.whole_digits,
      neg_one_mul]
    rfl

/-- A decimal is its whole number, and its fraction after a dot. -/
theorem text_eq : n.text = n.wholeText ++ n.fraction.elim [] fun f => dot :: f := rfl

/-- The text of a whole number has no dot. -/
theorem wholeText_ne_dot : ∀ b ∈ n.wholeText, decide (b ≠ dot) = true := by
  intro b hb
  rcases List.mem_append.1 hb with hb | hb
  · split at hb
    case isTrue =>
      rw [List.mem_singleton.1 hb]
      decide
    case isFalse => cases hb
  · exact decide_eq_true (n.whole_digits b hb).ne_sign.2.2

/-- The text is cut at its point. -/
theorem cut_text : n.text.takeWhile (· ≠ dot) = n.wholeText ∧ (n.text.dropWhile (· ≠ dot)).tail = n.places := by
  have hwhole := wholeText_ne_dot n
  rw [text_eq, List.takeWhile_append_of_pos hwhole, List.dropWhile_append_of_pos hwhole, Decimal.places]
  cases n.fraction with
  | none => simp
  | some f => simp

/-- No byte of the number is an exponent's. -/
theorem not_exponent : (n.text.any fun b => b = 101 ∨ b = 69) = false := by
  have hdigit : ∀ b, IsDigit b → ¬ (b = 101 ∨ b = 69) := by
    rintro b h (rfl | rfl)
    · exact h.ne (.inr (by decide)) rfl
    · exact h.ne (.inr (by decide)) rfl
  rw [List.any_eq_false]
  intro b hb
  simp only [decide_eq_true_eq]
  rw [text_eq, List.mem_append, Decimal.wholeText, List.mem_append] at hb
  rcases hb with (hb | hb) | hb
  · split at hb
    case isTrue =>
      rw [List.mem_singleton.1 hb]
      decide
    case isFalse => cases hb
  · exact hdigit b (n.whole_digits b hb)
  · cases hf : n.fraction with
    | none =>
      rw [hf] at hb
      cases hb
    | some f =>
      rw [hf] at hb
      rcases List.mem_cons.1 hb with rfl | hb
      · decide
      · exact hdigit b (n.fraction_digits f hf b hb)

/-- The places after the dot are digits. -/
theorem places_digits : ∀ b ∈ n.places, IsDigit b := by
  unfold Decimal.places
  cases hf : n.fraction with
  | none => exact nofun
  | some f => exact n.fraction_digits f hf

/-- The number in a unit, cut toward zero, part by part. -/
theorem cutTowardZero_value {digits : ℕ} (hdigits : digits ≤ 9) :
    cutTowardZero (n.value * 10 ^ digits) = n.signed * 10 ^ digits +
      n.sign * digitsValue ((n.places ++ List.replicate 9 48).take digits) := by
  have hfloor := digitsValue_take (places_digits n) hdigits
  have hvalue : n.value * 10 ^ digits = n.sign *
      (digitsValue n.whole * 10 ^ digits + digitsValue n.places / 10 ^ n.places.length * 10 ^ digits) := by
    rw [Decimal.value]
    ring
  have hwhole : ⌊(digitsValue n.whole * 10 ^ digits +
      digitsValue n.places / 10 ^ n.places.length * 10 ^ digits : ℚ)⌋ =
        digitsValue n.whole * 10 ^ digits + digitsValue ((n.places ++ List.replicate 9 48).take digits) := by
    rw [hfloor]
    exact_mod_cast Int.floor_natCast_add (digitsValue n.whole * 10 ^ digits)
      (digitsValue n.places / 10 ^ n.places.length * 10 ^ digits : ℚ)
  have hnonneg : (0 : ℚ) ≤ digitsValue n.whole * 10 ^ digits +
      digitsValue n.places / 10 ^ n.places.length * 10 ^ digits := by positivity
  rw [hvalue, Decimal.signed, Decimal.sign, mul_assoc, ← mul_add, ← hwhole]
  generalize (digitsValue n.whole * 10 ^ digits +
    digitsValue n.places / 10 ^ n.places.length * 10 ^ digits : ℚ) = x at hnonneg
  split
  case isFalse => simp [cutTowardZero, hnonneg]
  case isTrue =>
    rw [cutTowardZero]
    split
    case isTrue hneg =>
      obtain rfl : x = 0 := by
        push_cast at hneg
        linarith
      simp
    case isFalse =>
      push_cast
      rw [neg_one_mul, neg_one_mul, Int.ceil_neg]

end Parsing

section Reading

variable {D : Type} (lib : Library D) (n : Decimal)

/-- A number that fits an int64 does not wrap. -/
theorem int64_of_inInt64 {m : ℤ} (h : InInt64 m) : int64 m = m := by
  unfold InInt64 minInt64 maxInt64 at h
  unfold int64 minInt64
  omega

/-- Each unit of the table is a power of ten nanoseconds, and its times fit with a unit to spare. -/
theorem of_mem_epochUnits {e : EpochUnit} (h : e ∈ epochUnits) :
    e.unit = 10 ^ e.digits ∧ e.digits ≤ 9 ∧
      ∀ w part : ℤ, minInt64.tdiv e.unit + 1 ≤ w → w ≤ maxInt64.tdiv e.unit - 1 → |part| < e.unit →
        InInt64 w ∧ InInt64 (w * e.unit) ∧ InInt64 (w * e.unit + part) := by
  unfold InInt64
  simp only [epochUnits, List.mem_cons, List.not_mem_nil, or_false] at h
  rcases h with rfl | rfl | rfl | rfl
  all_goals
    refine ⟨by norm_num [second], by norm_num, ?_⟩
    intro w part hlow hhigh hpart
    rw [abs_lt] at hpart
    simp [minInt64, maxInt64, second] at hlow hhigh hpart ⊢
    omega

/-- The digits cut to a unit's places, as the number they write. -/
theorem parseInt_taken {digits : ℕ} (hpos : digits ≠ 0) (hdigits : digits ≤ 9) :
    parseInt ((n.places ++ List.replicate 9 48).take digits) =
      some (digitsValue ((n.places ++ List.replicate 9 48).take digits) : ℤ) := by
  set taken := (n.places ++ List.replicate 9 48).take digits with htaken
  have hall : ∀ b ∈ taken, IsDigit b := by
    intro b hb
    rcases List.mem_append.1 (List.mem_of_mem_take hb) with hb | hb
    · exact places_digits n b hb
    · rw [List.eq_of_mem_replicate hb]
      exact ⟨by decide, by decide⟩
  have hlength : taken.length = digits := by
    rw [htaken, List.length_take, List.length_append, List.length_replicate]
    omega
  have hlt : digitsValue taken < 10 ^ 9 :=
    (digitsValue_lt hall).trans_le (hlength ▸ Nat.pow_le_pow_right (by decide) hdigits)
  have hfits : minInt64 ≤ (digitsValue taken : ℤ) ∧ (digitsValue taken : ℤ) ≤ maxInt64 := by
    unfold minInt64 maxInt64
    omega
  rw [parseInt_digits (by rw [← List.length_pos_iff]; omega) hall, Option.filter_some]
  exact if_pos (decide_eq_true hfits)

/-- The places cut to a unit's digits are less than one of that unit. -/
theorem abs_part_lt {digits : ℕ} (hdigits : digits ≤ 9) :
    |n.sign * digitsValue ((n.places ++ List.replicate 9 48).take digits)| < 10 ^ digits := by
  have hall : ∀ b ∈ (n.places ++ List.replicate 9 48).take digits, IsDigit b := by
    intro b hb
    rcases List.mem_append.1 (List.mem_of_mem_take hb) with hb | hb
    · exact places_digits n b hb
    · rw [List.eq_of_mem_replicate hb]
      exact ⟨by decide, by decide⟩
  have hlt := digitsValue_lt hall
  have hlength : ((n.places ++ List.replicate 9 48).take digits).length = digits := by
    rw [List.length_take, List.length_append, List.length_replicate]
    omega
  rw [hlength] at hlt
  have hsign : |n.sign| = 1 := by
    unfold Decimal.sign
    split <;> rfl
  rw [abs_mul, hsign, one_mul, Nat.abs_cast]
  exact_mod_cast hlt

/-- The part below a unit has the number's sign, also where the whole part is zero. -/
theorem signed_part (part : ℤ) :
    (if n.wholeText.head? = some 45 then -part else part) = n.sign * part := by
  unfold Decimal.wholeText Decimal.sign
  cases n.negative with
  | true => simp
  | false =>
    obtain ⟨b, rest, hwhole⟩ := List.exists_cons_of_ne_nil n.whole_ne
    have hb := (n.whole_digits b (by rw [hwhole]; exact List.mem_cons_self)).ne_sign.1
    simp [hwhole, hb]

/-- An epoch without an exponent is refused, or read exactly in the unit of its magnitude, with no step
past an `int64`. -/
theorem parseEpoch_exact :
    match lib.parseFloat n.text with
    | none => parseEpoch lib n.text = none
    | some f => ∃ e ∈ epochUnits,
        epochUnits.find? (fun e => e.below.all fun below => |lib.float64 f| < below) = some e ∧
        parseEpoch lib n.text = (if n.Fits e then some (cutTowardZero (n.value * e.unit)) else none) ∧
        (n.Fits e → InInt64 (n.signed * e.unit) ∧ InInt64 (cutTowardZero (n.value * e.unit))) := by
  cases hf : lib.parseFloat n.text with
  | none =>
    simp only [parseEpoch, hf]
    rfl
  | some f =>
    simp only
    obtain ⟨e, he⟩ : ∃ e, epochUnits.find? (fun e => e.below.all fun below => |lib.float64 f| < below) =
        some e := by
      rw [← Option.isSome_iff_exists, List.find?_isSome]
      exact ⟨⟨none, 1, 0⟩, by simp [epochUnits], rfl⟩
    have hmem := List.mem_of_find?_eq_some he
    obtain ⟨hunit, hdigits, hbounds⟩ := of_mem_epochUnits hmem
    have hpart := abs_part_lt n hdigits
    have hcut : cutTowardZero (n.value * e.unit) = n.signed * e.unit +
        n.sign * digitsValue ((n.places ++ List.replicate 9 48).take e.digits) := by
      rw [hunit]
      push_cast
      exact cutTowardZero_value n hdigits
    refine ⟨e, hmem, he, ?_, fun hfits => ?_⟩
    · obtain ⟨hwhole, hplaces⟩ := cut_text n
      simp only [parseEpoch, hf, he, Option.bind_eq_bind, Option.bind_some, not_exponent n, hwhole, hplaces,
        parseInt_wholeText]
      rw [if_neg nofun, Option.filter_some]
      by_cases hfits : n.Fits e
      · obtain ⟨hin, hproduct, hsum⟩ := hbounds _ _ hfits.1 hfits.2 (hunit ▸ hpart)
        have hinside : ¬ (n.signed > maxInt64.tdiv e.unit - 1 ∨ n.signed < minInt64.tdiv e.unit + 1) := by
          rintro (h | h)
          · exact absurd hfits.2 (not_le_of_gt h)
          · exact absurd hfits.1 (not_le_of_gt h)
        have hkept : decide (minInt64 ≤ n.signed ∧ n.signed ≤ maxInt64) = true := decide_eq_true hin
        rw [if_pos hkept, Option.bind_some, if_neg hinside, if_pos hfits, hcut,
          int64_of_inInt64 hproduct]
        by_cases hzero : e.digits = 0
        · rw [hzero, List.take_zero, if_pos rfl]
          simp [digitsValue, Digits.value]
        · have hne : (n.places ++ List.replicate 9 48).take e.digits ≠ [] := by
            rw [← List.length_pos_iff, List.length_take, List.length_append, List.length_replicate]
            omega
          rw [if_neg hne, parseInt_taken n hzero hdigits, Option.getD_some, signed_part n, int64_of_inInt64 hsum]
      · rw [if_neg hfits]
        split
        case isFalse => rfl
        case isTrue =>
          have houtside : n.signed > maxInt64.tdiv e.unit - 1 ∨ n.signed < minInt64.tdiv e.unit + 1 := by
            unfold Decimal.Fits at hfits
            omega
          rw [Option.bind_some, if_pos houtside]
    · obtain ⟨-, hproduct, hsum⟩ := hbounds _ _ hfits.1 hfits.2 (hunit ▸ hpart)
      exact ⟨hproduct, hcut ▸ hsum⟩

end Reading

end SolidTrace.Normalise
