import SqlFront.Decimal.Reading
import SqlFront.Proofs.Significands

/-!
What a way to read decimals has to promise, and that reading digit by digit keeps it.

A number that can be held is read as it is. Others may be rounded, but their sign and the digits in
front of the point are not lost.
-/

namespace SqlFront.Decimal

/-- The promises of a reader of decimals. -/
structure Reader.Lawful (reader : Reader) : Prop where
  plain_sign {negative : Bool} {whole fraction : List Char} {value : Decimal} :
    reader.plain negative whole fraction = some value → value.HasSign negative
  /-- The digits in front of the point fit into a coefficient. -/
  plain_whole {negative : Bool} {whole fraction : List Char} {value : Decimal} :
    reader.plain negative whole fraction = some value → digitsValue 0 whole ≤ maxCoefficient
  /-- A number that is the value of a decimal is read exactly. -/
  plain_exact {negative : Bool} {whole fraction : List Char} {value : Decimal} :
    AreDigits (whole ++ fraction) → whole ≠ [] →
    value.value =
      withSign negative (digitsValue 0 (whole ++ fraction) / 10 ^ fraction.length) →
    ∃ read, reader.plain negative whole fraction = some read ∧ read.value = value.value
  scientific_sign {negative : Bool} {whole fraction : List Char} {exponent : Int}
    {value : Decimal} :
    reader.scientific negative whole fraction exponent = some value → value.HasSign negative
  /-- The digits in front of the point fit before the power of ten is looked at, and that is no
  larger than a scale. -/
  scientific_whole {negative : Bool} {whole fraction : List Char} {exponent : Int}
    {value : Decimal} :
    reader.scientific negative whole fraction exponent = some value →
    digitsValue 0 whole ≤ maxCoefficient ∧ exponent.natAbs ≤ maxScale

/-! ### Reading digit by digit -/

section Absorb

variable {coefficient scale t v : Nat} {c : Char} {digits : List Char}

/-- When a digit does not fit any more, but the number does, then only zeros are left. -/
theorem digitsValue_dropped (areDigits : AreDigits (c :: digits))
    (full : ¬ (scale < maxScale ∧ digitsValue coefficient [c] ≤ maxCoefficient))
    (ht : t ≤ maxScale) (hv : v ≤ maxCoefficient)
    (h : digitsValue coefficient (c :: digits) * 10 ^ t = v * 10 ^ (scale + (c :: digits).length)) :
    digitsValue 0 (c :: digits) = 0 := by
  have ten (n : Nat) : 0 < 10 ^ n := Nat.pow_pos (by decide)
  rcases Nat.lt_or_ge scale t with beyond | within
  · -- the number has a digit at this place, so that the coefficient is too large for it
    exfalso
    have large : maxCoefficient < digitsValue coefficient [c] := by omega
    obtain ⟨k, rfl⟩ := Nat.exists_eq_add_of_lt beyond
    rw [digitsValue_cons, digitsValue_start, List.length_cons] at h
    have : digitsValue coefficient [c] * 10 ^ (scale + (digits.length + 1)) ≤
        v * 10 ^ (scale + (digits.length + 1)) := by
      calc digitsValue coefficient [c] * 10 ^ (scale + (digits.length + 1))
          ≤ digitsValue coefficient [c] * 10 ^ (scale + (digits.length + 1)) * 10 ^ k :=
            Nat.le_mul_of_pos_right _ (ten k)
        _ = digitsValue coefficient [c] * 10 ^ digits.length * 10 ^ (scale + k + 1) := by ring
        _ ≤ v * 10 ^ (scale + (digits.length + 1)) := by
            rw [← h]
            exact Nat.mul_le_mul_right _ (Nat.le_add_right _ _)
    have := Nat.le_of_mul_le_mul_right this (ten _)
    omega
  · -- the digits are the fraction of a whole number
    obtain ⟨k, rfl⟩ := Nat.exists_eq_add_of_le within
    have whole : digitsValue coefficient (c :: digits) =
        v * 10 ^ k * 10 ^ (c :: digits).length := by
      apply Nat.eq_of_mul_eq_mul_right (ten t)
      rw [h]
      ring
    rw [digitsValue_start] at whole
    have small := digitsValue_lt areDigits
    have rest := congrArg (· % 10 ^ (c :: digits).length) whole
    simp only [Nat.mul_add_mod', Nat.mod_eq_of_lt small, Nat.mul_mod_left] at rest
    exact rest

/-- **A number that can be held is read exactly.** -/
theorem absorb_exact (areDigits : AreDigits digits) (hc : coefficient ≤ maxCoefficient)
    (hs : scale ≤ maxScale) (ht : t ≤ maxScale) (hv : v ≤ maxCoefficient)
    (h : digitsValue coefficient digits * 10 ^ t = v * 10 ^ (scale + digits.length)) :
    ∃ read places, absorb coefficient scale digits = some (read, places) ∧
      read ≤ maxCoefficient ∧ places ≤ maxScale ∧ read * 10 ^ t = v * 10 ^ places := by
  induction digits generalizing coefficient scale with
  | nil => exact ⟨coefficient, scale, rfl, hc, hs, h⟩
  | cons c digits ih =>
    rw [absorb]
    by_cases room : scale < maxScale ∧ digitsValue coefficient [c] ≤ maxCoefficient
    · rw [if_pos room]
      refine ih (List.forall_mem_cons.mp areDigits).2 room.2 room.1 ?_
      rw [← digitsValue_cons, h, List.length_cons, Nat.add_right_comm, Nat.add_assoc]
    · have zeros := digitsValue_dropped areDigits room ht hv h
      have first : c = '0' := by
        have all := digitsValue_eq_zero areDigits zeros
        rw [List.length_cons, List.replicate_succ] at all
        exact (List.cons.inj all).1
      subst first
      rw [if_neg room]
      refine ⟨coefficient, scale, rfl, hc, hs, ?_⟩
      rw [digitsValue_start, zeros, Nat.add_zero, Nat.mul_right_comm, Nat.pow_add,
        ← Nat.mul_assoc] at h
      exact Nat.eq_of_mul_eq_mul_right (Nat.pow_pos (by decide)) h

end Absorb

/-! ### The reader -/

theorem hasSign_of_ofSigned? {negative : Bool} {coefficient scale : Nat} {value : Decimal}
    (h : ofSigned? negative coefficient scale = some value) : value.HasSign negative := by
  rw [ofSigned?, ofParts?] at h
  obtain ⟨_, made⟩ := Option.dite_none_right_eq_some.mp h
  obtain rfl := Option.some.inj made
  cases negative with
  | true => exact neg_nonpos.mpr (Int.natCast_nonneg coefficient)
  | false => exact Int.natCast_nonneg coefficient

/-- Parts that are in range are held as they are. -/
theorem exists_ofSigned? (negative : Bool) {coefficient scale : Nat}
    (hc : coefficient ≤ maxCoefficient) (hs : scale ≤ maxScale) :
    ∃ value : Decimal, ofSigned? negative coefficient scale = some value ∧
      value.coefficient.natAbs = coefficient ∧ value.scale = scale := by
  have size : (if negative then -(coefficient : Int) else coefficient).natAbs = coefficient := by
    cases negative <;> simp
  refine ⟨⟨_, scale, by rw [size]; exact ⟨hc, hs⟩⟩, dif_pos _, size, rfl⟩

theorem ofPlain?_eq_some {negative : Bool} {whole fraction : List Char} {value : Decimal} :
    ofPlain? negative whole fraction = some value ↔
      ∃ coefficient scale, ofDigits? whole fraction = some (coefficient, scale) ∧
        ofSigned? negative coefficient scale = some value := by
  simp [ofPlain?, Option.bind_eq_some_iff]

theorem ofScientific?_eq_some {negative : Bool} {whole fraction : List Char} {exponent : Int}
    {value : Decimal} :
    ofScientific? negative whole fraction exponent = some value ↔
      ∃ coefficient scale, ofDigits? whole fraction = some (coefficient, scale) ∧
        ∃ shifted places, shift? coefficient scale exponent = some (shifted, places) ∧
          ofSigned? negative shifted places = some value := by
  simp [ofScientific?, Option.bind_eq_some_iff]

theorem whole_of_ofDigits? {whole fraction : List Char} {read : Nat × Nat}
    (h : ofDigits? whole fraction = some read) : digitsValue 0 whole ≤ maxCoefficient := by
  unfold ofDigits? at h
  split at h
  · assumption
  · cases h

/-- Digits of a number that can be held are read exactly. -/
theorem ofDigits?_exact {whole fraction : List Char} {v t : Nat}
    (areDigits : AreDigits (whole ++ fraction)) (ht : t ≤ maxScale) (hv : v ≤ maxCoefficient)
    (h : digitsValue 0 (whole ++ fraction) * 10 ^ t = v * 10 ^ fraction.length) :
    ∃ read places, ofDigits? whole fraction = some (read, places) ∧
      read ≤ maxCoefficient ∧ places ≤ maxScale ∧ read * 10 ^ t = v * 10 ^ places := by
  rw [digitsValue_append] at h
  have fits : digitsValue 0 whole ≤ maxCoefficient := by
    refine Nat.le_trans (Nat.le_of_mul_le_mul_right ?_ (Nat.pow_pos (by decide) :
      0 < 10 ^ fraction.length)) hv
    calc digitsValue 0 whole * 10 ^ fraction.length
        ≤ digitsValue (digitsValue 0 whole) fraction := by
          rw [digitsValue_start (digitsValue 0 whole)]
          exact Nat.le_add_right _ _
      _ ≤ digitsValue (digitsValue 0 whole) fraction * 10 ^ t :=
          Nat.le_mul_of_pos_right _ (Nat.pow_pos (by decide))
      _ = v * 10 ^ fraction.length := h
  rw [ofDigits?, if_pos fits]
  refine absorb_exact (areDigits_append.mp areDigits).2 fits (Nat.zero_le _) ht hv ?_
  rwa [Nat.zero_add]

/-- **Reading with as many digits as a decimal holds keeps the promises.** -/
theorem reader_lawful : reader.Lawful where
  plain_sign h := by
    obtain ⟨_, _, -, made⟩ := ofPlain?_eq_some.mp h
    exact hasSign_of_ofSigned? made
  plain_whole h := by
    obtain ⟨_, _, digits, -⟩ := ofPlain?_eq_some.mp h
    exact whole_of_ofDigits? digits
  plain_exact := by
    intro negative whole fraction value areDigits _ h
    have ten (n : Nat) : (10 : ℚ) ^ n ≠ 0 := pow_ne_zero n (by norm_num)
    have nonneg : (0 : ℚ) ≤ digitsValue 0 (whole ++ fraction) / 10 ^ fraction.length :=
      div_nonneg (Nat.cast_nonneg _) (pow_nonneg (by norm_num) _)
    have size := natAbs_of_value_eq nonneg h
    have cross := (div_eq_div_iff (ten _) (ten _)).mp size
    norm_cast at cross
    obtain ⟨coefficient, scale, read, hc, hs, same⟩ :=
      ofDigits?_exact areDigits value.fits.2 value.fits.1 cross.symm
    obtain ⟨result, made, coefficientEq, scaleEq⟩ := exists_ofSigned? negative hc hs
    refine ⟨result, ofPlain?_eq_some.mpr ⟨_, _, read, made⟩, ?_⟩
    rw [(hasSign_of_ofSigned? made).value_eq, h, coefficientEq, scaleEq, ← size]
    congr 1
    rw [div_eq_div_iff (ten _) (ten _)]
    exact_mod_cast same
  scientific_sign h := by
    obtain ⟨_, _, -, _, _, -, made⟩ := ofScientific?_eq_some.mp h
    exact hasSign_of_ofSigned? made
  scientific_whole h := by
    obtain ⟨_, _, digits, _, _, moved, -⟩ := ofScientific?_eq_some.mp h
    refine ⟨whole_of_ofDigits? digits, ?_⟩
    unfold shift? at moved
    split at moved
    · cases moved
    · omega

end SqlFront.Decimal
