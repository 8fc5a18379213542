import Mathlib.Algebra.Group.Nat.Defs
import Mathlib.Data.List.Induction
import SqlFront.Decimal

/-!
Decimal digits and the numbers that they stand for.

The value of digits is that of the standard library, so that its lemmas carry over. Digits without a
zero in front are those that a number is written with, and the zeros at their end are powers of ten.
-/

namespace SqlFront.Decimal

variable {start : Nat} {c : Char} {digits more : List Char}

/-- Every character is a decimal digit. -/
def AreDigits (digits : List Char) : Prop :=
  ∀ c ∈ digits, c.isDigit = true

theorem areDigits_append : AreDigits (digits ++ more) ↔ AreDigits digits ∧ AreDigits more :=
  List.forall_mem_append

theorem areDigits_zeros (count : Nat) : AreDigits (List.replicate count '0') := by
  intro c hc
  obtain rfl := List.eq_of_mem_replicate hc
  rfl

theorem areDigits_of_all (h : digits.all Char.isDigit = true) : AreDigits digits :=
  List.all_eq_true.mp h

/-! ### The value of digits -/

theorem digitsValue_eq (start : Nat) (digits : List Char) :
    digitsValue start digits = Nat.ofDigitChars 10 digits start :=
  Nat.ofDigitChars_eq_foldl.symm

theorem digitsValue_append (start : Nat) (digits more : List Char) :
    digitsValue start (digits ++ more) = digitsValue (digitsValue start digits) more :=
  List.foldl_append

theorem digitsValue_cons (start : Nat) (c : Char) (digits : List Char) :
    digitsValue start (c :: digits) = digitsValue (digitsValue start [c]) digits :=
  digitsValue_append start [c] digits

/-- Digits after a number move it up by their count. -/
theorem digitsValue_start (start : Nat) (digits : List Char) :
    digitsValue start digits = start * 10 ^ digits.length + digitsValue 0 digits := by
  rw [digitsValue_eq, digitsValue_eq, Nat.ofDigitChars_eq_ofDigitChars_zero, Nat.mul_comm]

theorem digitsValue_zeros (start count : Nat) :
    digitsValue start (List.replicate count '0') = start * 10 ^ count := by
  rw [digitsValue_eq, Nat.ofDigitChars_replicate_zero, Nat.mul_comm]

/-- A digit is one of the ten, and appends itself to what stands before it. -/
theorem exists_digitChar (hc : c.isDigit = true) :
    ∃ d < 10, c = d.digitChar ∧ ∀ start, digitsValue start [c] = 10 * start + d := by
  obtain ⟨low, high⟩ := Char.isDigit_iff_toNat.mp hc
  have small : c.toNat - '0'.toNat < 10 := by
    have : '0'.toNat = 48 := rfl
    have : '9'.toNat = 57 := rfl
    omega
  refine ⟨c.toNat - '0'.toNat, small, ?_, fun start => rfl⟩
  apply Char.toNat_inj.mp
  rw [Nat.toNat_digitChar_of_lt_ten small]
  exact (Nat.add_sub_cancel' low).symm

theorem digitsValue_lt (h : AreDigits digits) : digitsValue 0 digits < 10 ^ digits.length := by
  induction digits with
  | nil => exact Nat.one_pos
  | cons c digits ih =>
    obtain ⟨hc, hdigits⟩ := List.forall_mem_cons.mp h
    obtain ⟨d, small, -, value⟩ := exists_digitChar hc
    have rest := ih hdigits
    rw [digitsValue_cons, digitsValue_start, value, List.length_cons, Nat.pow_succ]
    calc (10 * 0 + d) * 10 ^ digits.length + digitsValue 0 digits
        < (10 * 0 + d) * 10 ^ digits.length + 10 ^ digits.length := Nat.add_lt_add_left rest _
      _ = (d + 1) * 10 ^ digits.length := by rw [Nat.mul_zero, Nat.zero_add, Nat.succ_mul]
      _ ≤ 10 * 10 ^ digits.length := Nat.mul_le_mul_right _ small
      _ = 10 ^ digits.length * 10 := Nat.mul_comm _ _

/-- Only zeros stand for zero. -/
theorem digitsValue_eq_zero (h : AreDigits digits) (zero : digitsValue 0 digits = 0) :
    digits = List.replicate digits.length '0' := by
  induction digits with
  | nil => rfl
  | cons c digits ih =>
    obtain ⟨hc, hdigits⟩ := List.forall_mem_cons.mp h
    obtain ⟨d, small, rfl, value⟩ := exists_digitChar hc
    rw [digitsValue_cons, digitsValue_start, value, Nat.add_eq_zero_iff, Nat.mul_eq_zero] at zero
    obtain ⟨first, rest⟩ := zero
    have hd : d = 0 := by
      have : 10 ^ digits.length ≠ 0 := Nat.pos_iff_ne_zero.mp (Nat.pow_pos (by decide))
      omega
    rw [hd, List.length_cons, List.replicate_succ, ← ih hdigits rest]
    rfl

/-! ### The digits of a number -/

theorem digitsValue_digitText (n : Nat) : digitsValue 0 (digitText n) = n :=
  Nat.ofDigitChars_ten_toDigits

/-- Digits are those that their number is written with, where the first is not zero. -/
theorem digitText_digitsValue (h : AreDigits digits) (ne : digits ≠ [])
    (lead : digits.head? ≠ some '0') : digitText (digitsValue 0 digits) = digits := by
  induction digits using List.reverseRecOn with
  | nil => exact absurd rfl ne
  | append_singleton digits c ih =>
    obtain ⟨hdigits, hc⟩ := areDigits_append.mp h
    obtain ⟨d, small, rfl, value⟩ := exists_digitChar (hc c (by simp))
    have last : digitText d = [d.digitChar] := Nat.toDigits_of_lt_base small
    rw [digitsValue_append, value]
    cases digits with
    | nil => simpa [digitsValue] using last
    | cons first digits =>
      have before := ih hdigits (by simp) (by simpa using lead)
      have positive : 0 < digitsValue 0 (first :: digits) := by
        refine Nat.pos_iff_ne_zero.mpr fun zero => lead ?_
        rw [digitsValue_eq_zero hdigits zero]
        rfl
      rw [digitText, ← Nat.toDigits_append_toDigits (by decide) positive small]
      exact congrArg₂ _ before last

end SqlFront.Decimal
