import Mathlib.Algebra.Field.Rat
import Mathlib.Algebra.Order.Field.Basic
import Mathlib.Algebra.Order.Field.Rat
import Mathlib.Tactic.FieldSimp
import Mathlib.Tactic.Ring
import SqlFront.Literal.Number
import SqlFront.Proofs.DigitValues

/-!
What the comparison of a decimal with written digits says.

Both sides are brought into a form without zeros at the ends, a decimal by moving its point and
written digits by dropping them. In that form a number has one coefficient and one scale, so that
the comparison of digits and scales is one of values.
-/

namespace SqlFront

open Decimal

/-- The number that a decimal stands for. -/
def Decimal.value (d : Decimal) : ℚ :=
  d.coefficient / 10 ^ d.scale

namespace Decimal

/-- A sign in front of a number. -/
def withSign (negative : Bool) (magnitude : ℚ) : ℚ :=
  if negative then -magnitude else magnitude

/-- The coefficient has the sign; zero has both. -/
def HasSign (value : Decimal) (negative : Bool) : Prop :=
  if negative then value.coefficient ≤ 0 else 0 ≤ value.coefficient

/-- A coefficient with a sign is the sign and the coefficient without it. -/
theorem HasSign.value_eq {value : Decimal} {negative : Bool} (h : value.HasSign negative) :
    value.value = withSign negative (value.coefficient.natAbs / 10 ^ value.scale) := by
  obtain ⟨coefficient, scale, fits⟩ := value
  simp only [HasSign] at h
  simp only [Decimal.value, withSign]
  cases negative with
  | true =>
    rw [if_pos rfl] at h ⊢
    rw [← neg_div, Nat.cast_natAbs, abs_of_nonpos h]
    push_cast
    rw [neg_neg]
  | false =>
    rw [if_neg Bool.false_ne_true] at h ⊢
    rw [Nat.cast_natAbs, abs_of_nonneg h]

/-- The coefficient of a number with a sign is that of its magnitude. -/
theorem natAbs_of_value_eq {value : Decimal} {negative : Bool} {magnitude : ℚ}
    (nonneg : 0 ≤ magnitude) (h : value.value = withSign negative magnitude) :
    (value.coefficient.natAbs : ℚ) / 10 ^ value.scale = magnitude := by
  have size : |value.value| = magnitude := by
    rw [h, withSign]
    split
    · rw [abs_neg, abs_of_nonneg nonneg]
    · exact abs_of_nonneg nonneg
  have ten : (0 : ℚ) ≤ 10 ^ value.scale := pow_nonneg (by norm_num) _
  rw [← size, Decimal.value, abs_div, abs_of_nonneg ten, Nat.cast_natAbs, Int.cast_abs]

/-- Stripping takes factors of ten off the coefficient, one for each place of the scale, as long as
there are both. -/
theorem strip_eq (coefficient scale : Nat) :
    ∃ zeros, coefficient = (strip coefficient scale).1 * 10 ^ zeros ∧
      scale = (strip coefficient scale).2 + zeros ∧
      ((strip coefficient scale).2 = 0 ∨ (strip coefficient scale).1 % 10 ≠ 0) := by
  fun_induction strip coefficient scale with
  | case1 coefficient => exact ⟨0, (Nat.mul_one _).symm, rfl, .inl rfl⟩
  | case2 coefficient scale divisible ih =>
    obtain ⟨zeros, value, places, stripped⟩ := ih
    refine ⟨zeros + 1, ?_, by omega, stripped⟩
    rw [Nat.pow_succ, ← Nat.mul_assoc, ← value]
    omega
  | case3 coefficient scale rest => exact ⟨0, (Nat.mul_one _).symm, rfl, .inr rest⟩

/-- Stripping keeps the number. -/
theorem strip_value (coefficient scale : Nat) :
    ((strip coefficient scale).1 : ℚ) / 10 ^ (strip coefficient scale).2 =
      coefficient / 10 ^ scale := by
  obtain ⟨zeros, value, places, -⟩ := strip_eq coefficient scale
  generalize strip coefficient scale = stripped at value places ⊢
  subst value places
  rw [pow_add, Nat.cast_mul, Nat.cast_pow, Nat.cast_ofNat]
  field_simp

/-- Two fractions over powers of ten that cannot be shortened are equal only if they are the
same. -/
theorem eq_of_shortened {m n s t : Nat} (hm : s = 0 ∨ m % 10 ≠ 0) (hn : t = 0 ∨ n % 10 ≠ 0)
    (h : m * 10 ^ t = n * 10 ^ s) : m = n ∧ s = t := by
  have shorter {m n s t : Nat} (hn : t = 0 ∨ n % 10 ≠ 0) (h : m * 10 ^ t = n * 10 ^ s) :
      ¬ s < t := by
    intro less
    obtain ⟨more, rfl⟩ := Nat.exists_eq_add_of_lt less
    have value : n = m * 10 ^ more * 10 := by
      apply Nat.eq_of_mul_eq_mul_right (Nat.pow_pos (n := s) (by decide : 0 < 10))
      rw [← h]
      ring
    rw [value, Nat.mul_mod_left] at hn
    omega
  have places : s = t := by
    have := shorter hn h
    have := shorter hm h.symm
    omega
  subst places
  exact ⟨Nat.eq_of_mul_eq_mul_right (Nat.pow_pos (by decide)) h, rfl⟩

end Decimal

namespace Significand

/-- Digits with no zero at either end. -/
structure Trimmed (significand : Significand) : Prop where
  digits : AreDigits significand.digits
  head : significand.digits.head? ≠ some '0'
  last : significand.digits.getLast? ≠ some '0'

/-- The number that the digits stand for. -/
def magnitude (significand : Significand) : ℚ :=
  digitsValue 0 significand.digits / 10 ^ significand.scale

variable {significand : Significand}

theorem Trimmed.value_pos (h : significand.Trimmed) (ne : significand.digits ≠ []) :
    0 < digitsValue 0 significand.digits := by
  refine Nat.pos_iff_ne_zero.mpr fun zero => h.head ?_
  rw [digitsValue_eq_zero h.digits zero]
  have := List.length_pos_iff.mpr ne
  rw [List.head?_replicate, if_neg (by omega)]

theorem Trimmed.value_mod (h : significand.Trimmed) (ne : significand.digits ≠ []) :
    digitsValue 0 significand.digits % 10 ≠ 0 := by
  obtain ⟨before, c, split⟩ := (List.eq_nil_or_concat' _).resolve_left ne
  have hc := h.digits c (by simp [split])
  obtain ⟨d, small, rfl, value⟩ := exists_digitChar hc
  rw [split, digitsValue_append, value]
  intro zero
  obtain rfl : d = 0 := by omega
  exact h.last (by simp [split, Nat.digitChar])

/-- The digits of the magnitude times a power of ten. -/
theorem Trimmed.digitText (h : significand.Trimmed) (ne : significand.digits ≠ []) (zeros : Nat) :
    Decimal.digitText (digitsValue 0 significand.digits * 10 ^ zeros) =
      significand.digits ++ List.replicate zeros '0' := by
  rw [← digitsValue_zeros, ← digitsValue_append]
  apply digitText_digitsValue
  · exact areDigits_append.mpr ⟨h.digits, areDigits_zeros zeros⟩
  · exact List.append_ne_nil_of_left_ne_nil ne _
  · rw [List.head?_append_of_ne_nil _ ne]
    exact h.head

/-- At a scale from zero on, the same digits at the same scale are the same number. -/
theorem Trimmed.same_digits_iff (h : significand.Trimmed) (ne : significand.digits ≠ [])
    {coefficient scale places : Nat} (stripped : scale = 0 ∨ coefficient % 10 ≠ 0) :
    Decimal.digitText coefficient = significand.digits ∧ scale = places ↔
      coefficient * 10 ^ places = digitsValue 0 significand.digits * 10 ^ scale := by
  constructor
  · rintro ⟨same, rfl⟩
    rw [← same, digitsValue_digitText]
  · intro equal
    obtain ⟨rfl, rfl⟩ := eq_of_shortened stripped (.inr (h.value_mod ne)) equal
    exact ⟨by simpa using h.digitText ne 0, rfl⟩

/-- Below zero, the digits and as many zeros after them are the same number. -/
theorem Trimmed.padded_digits_iff (h : significand.Trimmed) (ne : significand.digits ≠ [])
    {coefficient scale zeros : Nat} (stripped : scale = 0 ∨ coefficient % 10 ≠ 0)
    (some : 0 < zeros) :
    scale = 0 ∧ Decimal.digitText coefficient = significand.digits ++ List.replicate zeros '0' ↔
      coefficient = digitsValue 0 significand.digits * 10 ^ zeros * 10 ^ scale := by
  constructor
  · rintro ⟨rfl, same⟩
    rw [Nat.pow_zero, Nat.mul_one, ← digitsValue_zeros, ← digitsValue_append, ← same,
      digitsValue_digitText]
  · intro equal
    have whole : scale = 0 := by
      refine stripped.resolve_right fun rest => rest ?_
      rw [equal, Nat.mul_assoc, ← Nat.pow_add]
      obtain ⟨more, hmore⟩ := Nat.exists_eq_add_of_lt (Nat.add_pos_left some scale)
      rw [hmore, Nat.pow_succ, ← Nat.mul_assoc, Nat.mul_mod_left]
    subst whole
    rw [Nat.pow_zero, Nat.mul_one] at equal
    exact ⟨rfl, equal ▸ h.digitText ne zeros⟩

/-- How the comparison looks for zeros after the digits. -/
theorem padded_iff {digits text : List Char} {zeros : Nat} :
    text.length = digits.length + zeros ∧ digits.isPrefixOf text = true ∧
        (text.drop digits.length).all (· == '0') = true ↔
      text = digits ++ List.replicate zeros '0' := by
  constructor
  · rintro ⟨count, front, rest⟩
    obtain ⟨more, rfl⟩ := List.isPrefixOf_iff_prefix.mp front
    rw [List.drop_left] at rest
    rw [List.length_append] at count
    rw [List.eq_replicate_iff.mpr ⟨(by omega : more.length = zeros), by simpa using rest⟩]
  · rintro rfl
    simp

/-- **The comparison is one of values.** A decimal has written digits exactly if it is the number
that they stand for, the sign left aside. -/
theorem Trimmed.isOf_iff (h : significand.Trimmed) (value : Decimal) :
    significand.isOf value = true ↔
      (value.coefficient.natAbs : ℚ) / 10 ^ value.scale = significand.magnitude := by
  obtain ⟨-, -, -, stripped⟩ := strip_eq value.coefficient.natAbs value.scale
  rw [← strip_value, magnitude]
  simp only [isOf]
  generalize strip value.coefficient.natAbs value.scale = parts at stripped ⊢
  obtain ⟨coefficient, scale⟩ := parts
  simp only at stripped ⊢
  by_cases none : significand.digits = []
  · simp [none, digitsValue]
  have positive := h.value_pos none
  by_cases zero : coefficient = 0
  · have written : (digitsValue 0 significand.digits : ℚ) / 10 ^ significand.scale ≠ 0 :=
      div_ne_zero (Nat.cast_ne_zero.mpr positive.ne') (zpow_ne_zero _ (by norm_num))
    simp [zero, none, written.symm]
  have ten (n : Nat) : (10 : ℚ) ^ n ≠ 0 := pow_ne_zero n (by norm_num)
  have decided : ¬ (coefficient == 0 || significand.digits.isEmpty) = true := by
    simp [zero, none]
  rw [if_neg decided]
  by_cases sign : 0 ≤ significand.scale
  · obtain ⟨places, hplaces⟩ := Int.eq_ofNat_of_zero_le sign
    rw [if_pos sign, hplaces, zpow_natCast, div_eq_div_iff (ten scale) (ten places)]
    norm_cast
    rw [← h.same_digits_iff none stripped]
    simp
  · obtain ⟨zeros, below⟩ : ∃ zeros : Nat, significand.scale = -zeros :=
      ⟨significand.scale.natAbs, by omega⟩
    have some : 0 < zeros := by omega
    rw [if_neg sign, below, Int.natAbs_neg, Int.natAbs_natCast, zpow_neg, zpow_natCast,
      div_inv_eq_mul, div_eq_iff (ten scale)]
    norm_cast
    rw [← h.padded_digits_iff none stripped some, ← padded_iff]
    simp [and_assoc]

end Significand

end SqlFront
