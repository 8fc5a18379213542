import Mathlib.Data.List.TakeWhile
import SqlFront.Proofs.Significands

/-!
What remains of a numeral when the zeros at the ends of its digits are dropped.

Each zero at the end takes one from the scale, which is a counter of 64 bits. The counter holds what
it should up to a multiple of all its values, and it holds that itself as long as it does not pass
its end.
-/

namespace SqlFront

open Decimal

theorem fitsInt64_iff {n : Int} :
    fitsInt64 n = true ↔ -9223372036854775808 ≤ n ∧ n ≤ 9223372036854775807 := by
  simp [fitsInt64]

theorem wrapInt64_of_fits {n : Int} (h : fitsInt64 n = true) : wrapInt64 n = n := by
  obtain ⟨low, high⟩ := fitsInt64_iff.mp h
  exact Int.bmod_eq_of_le_mul_two (by omega) (by omega)

theorem fitsInt64_wrapInt64 (n : Int) : fitsInt64 (wrapInt64 n) = true := by
  have low := Int.le_bmod (x := n) (m := 18446744073709551616) (by decide)
  have high := Int.bmod_lt (x := n) (m := 18446744073709551616) (by decide)
  rw [fitsInt64_iff, wrapInt64]
  omega

theorem wrapInt64_sub (m n : Int) : wrapInt64 (wrapInt64 m - n) = wrapInt64 (m - n) :=
  Int.bmod_sub_bmod

theorem subtractInt64?_eq_some {m n difference : Int} :
    subtractInt64? m n = some difference ↔ difference = m - n ∧ fitsInt64 difference = true := by
  rw [subtractInt64?]
  split
  · rename_i fits
    constructor
    · intro h
      obtain rfl := Option.some.inj h
      exact ⟨rfl, fits⟩
    · rintro ⟨rfl, -⟩
      rfl
  · rename_i fits
    constructor
    · intro h
      cases h
    · rintro ⟨rfl, fits'⟩
      exact absurd fits' fits

namespace Numeral

/-- The number of zeros at the end of digits. -/
def trailingZeros (digits : List Char) : Nat :=
  (digits.reverse.takeWhile (· == '0')).length

/-- Taking one from the scale for each zero at the end of digits, which come with the last one
first, leads out of the integers of 64 bits at some zero. -/
def overflows : List Char → Int → Bool
  | '0' :: digits, scale =>
      !fitsInt64 (scale - 1) || overflows digits (wrapInt64 (scale - 1))
  | _, _ => false

/-- Digits without a zero in front have none to take off there. -/
theorem takeWhile_zeros_of_ne {digits : List Char} (h : ∀ rest, digits = '0' :: rest → False) :
    digits.takeWhile (· == '0') = [] ∧ digits.dropWhile (· == '0') = digits := by
  cases digits with
  | nil => exact ⟨rfl, rfl⟩
  | cons c rest =>
    have hc : (c == '0') = false := beq_false_of_ne fun zero => h rest (zero ▸ rfl)
    simp [hc]

theorem dropZeros_fst (reversed : List Char) (scale : Int) :
    (dropZeros reversed scale).1 = reversed.dropWhile (· == '0') := by
  fun_induction dropZeros reversed scale with
  | case1 scale digits ih => simpa using ih
  | case2 digits scale other => exact (takeWhile_zeros_of_ne other).2.symm

/-- The scale after all zeros are dropped, up to a multiple of all values of its counter. -/
theorem dropZeros_snd {reversed : List Char} {scale : Int} (h : fitsInt64 scale = true) :
    (dropZeros reversed scale).2 =
      wrapInt64 (scale - (reversed.takeWhile (· == '0')).length) := by
  fun_induction dropZeros reversed scale with
  | case1 scale digits ih =>
    rw [ih (fitsInt64_wrapInt64 _), wrapInt64_sub]
    simp only [List.takeWhile_cons, beq_self_eq_true, if_true, List.length_cons]
    congr 1
    omega
  | case2 digits scale other =>
    rw [(takeWhile_zeros_of_ne other).1]
    simpa using (wrapInt64_of_fits h).symm

/-- The counter passes its end exactly if there are more zeros than it has values below it. -/
theorem overflows_iff {reversed : List Char} {scale : Int} (h : fitsInt64 scale = true) :
    overflows reversed scale = true ↔
      scale - (reversed.takeWhile (· == '0')).length < -9223372036854775808 := by
  fun_induction overflows reversed scale with
  | case1 digits scale ih =>
    obtain ⟨low, high⟩ := fitsInt64_iff.mp h
    simp only [List.takeWhile_cons, beq_self_eq_true, if_true, List.length_cons]
    cases next : fitsInt64 (scale - 1) with
    | false =>
      have : ¬ (-9223372036854775808 ≤ scale - 1 ∧ scale - 1 ≤ 9223372036854775807) := by
        rw [← fitsInt64_iff, next]
        exact Bool.false_ne_true
      simp only [Bool.not_false, Bool.true_or, true_iff]
      omega
    | true =>
      rw [wrapInt64_of_fits next] at ih ⊢
      rw [Bool.not_true, Bool.false_or, ih next]
      omega
  | case2 digits scale other =>
    obtain ⟨low, high⟩ := fitsInt64_iff.mp h
    rw [(takeWhile_zeros_of_ne other).1]
    simp only [Bool.false_eq_true, false_iff, List.length_nil]
    omega

/-- The zeros at the end of digits take the counter past its end exactly if there are more of them
than it has values below it. -/
theorem overflows_reverse_iff {digits : List Char} {scale : Int} (h : fitsInt64 scale = true) :
    overflows digits.reverse scale = true ↔
      scale - trailingZeros digits < -9223372036854775808 :=
  overflows_iff h

/-- As long as the counter does not pass its end, it holds the scale less the zeros. -/
theorem wrapInt64_of_not_overflows {digits : List Char} {scale : Int}
    (fits : fitsInt64 scale = true) (inside : overflows digits.reverse scale = false) :
    wrapInt64 (scale - trailingZeros digits) = scale - trailingZeros digits := by
  have high := (fitsInt64_iff.mp fits).2
  have low : ¬ scale - trailingZeros digits < -9223372036854775808 := by
    rw [← overflows_reverse_iff fits, inside]
    exact Bool.false_ne_true
  exact wrapInt64_of_fits (fitsInt64_iff.mpr ⟨by omega, by omega⟩)

/-! ### What is left of the digits -/

/-- Digits without the zeros at both ends. -/
def significantDigits (digits : List Char) : List Char :=
  (digits.reverse.dropWhile (· == '0')).reverse.dropWhile (· == '0')

theorem takeWhile_zeros (digits : List Char) :
    digits.takeWhile (· == '0') =
      List.replicate (digits.takeWhile (· == '0')).length '0' := by
  refine List.eq_replicate_of_mem fun c mem => ?_
  have zero := List.mem_takeWhile_imp mem
  exact eq_of_beq zero

/-- Digits are those that count, with zeros on both sides. -/
theorem exists_zeros (digits : List Char) :
    ∃ count, digits = List.replicate count '0' ++ significantDigits digits ++
      List.replicate (trailingZeros digits) '0' := by
  let kept := (digits.reverse.dropWhile (· == '0')).reverse
  have back : digits = kept ++ List.replicate (trailingZeros digits) '0' := by
    rw [trailingZeros, ← List.reverse_replicate, ← takeWhile_zeros, ← List.reverse_append,
      List.takeWhile_append_dropWhile, List.reverse_reverse]
  refine ⟨(kept.takeWhile (· == '0')).length, ?_⟩
  rw [← takeWhile_zeros, significantDigits, List.takeWhile_append_dropWhile]
  exact back

/-- The zeros at the end of digits are a power of ten. -/
theorem digitsValue_significantDigits (digits : List Char) :
    digitsValue 0 digits =
      digitsValue 0 (significantDigits digits) * 10 ^ trailingZeros digits := by
  obtain ⟨count, split⟩ := exists_zeros digits
  conv_lhs => rw [split]
  rw [digitsValue_append, digitsValue_append, digitsValue_zeros, digitsValue_zeros, Nat.zero_mul]

theorem head?_dropWhile_zeros (digits : List Char) :
    (digits.dropWhile (· == '0')).head? ≠ some '0' := by
  intro zero
  have := List.head?_dropWhile_not (· == '0') digits
  rw [zero] at this
  cases this

/-- There is no zero at either end any more. -/
theorem trimmed_significantDigits {digits : List Char} (h : AreDigits digits) (scale : Int) :
    Significand.Trimmed ⟨significantDigits digits, scale⟩ where
  digits c hc := by
    obtain ⟨count, split⟩ := exists_zeros digits
    exact h c (split ▸ List.mem_append_left _ (List.mem_append_right _ hc))
  head := head?_dropWhile_zeros _
  last := by
    intro zero
    apply head?_dropWhile_zeros digits.reverse
    rw [← List.getLast?_reverse, ← List.takeWhile_append_dropWhile (p := (· == '0'))
      (l := (digits.reverse.dropWhile (· == '0')).reverse), List.getLast?_append]
    simp only [significantDigits] at zero
    rw [zero, Option.some_or]

/-- The scale fits 64 bits where there is one. -/
theorem scale?_eq_some {numeral : Numeral} {scale : Int} :
    numeral.scale? = some scale ↔
      scale = numeral.fraction.length - numeral.exponent.getD 0 ∧ fitsInt64 scale = true :=
  subtractInt64?_eq_some

/-- The digits that count, and the scale that the counter holds after all zeros are dropped. -/
theorem significand?_eq_some {numeral : Numeral} {significand : Significand} :
    numeral.significand? = some significand ↔
      ∃ scale, numeral.scale? = some scale ∧
        significand = ⟨significantDigits numeral.digits,
          wrapInt64 (scale - trailingZeros numeral.digits)⟩ := by
  rw [significand?, Option.map_eq_some_iff]
  refine exists_congr fun scale => and_congr_right fun h => ?_
  have parts : dropZeros numeral.digits.reverse scale =
      (numeral.digits.reverse.dropWhile (· == '0'),
        wrapInt64 (scale - trailingZeros numeral.digits)) :=
    Prod.ext (dropZeros_fst _ _) (dropZeros_snd (scale?_eq_some.mp h).2)
  rw [parts]
  exact eq_comm

end Numeral

end SqlFront
