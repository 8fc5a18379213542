import SqlFront.Proofs.DecimalReaders
import SqlFront.Proofs.DroppedZeros
import SqlFront.Proofs.WrittenNumbers

/-!
Numeric literals stand for the numbers that are written.

A decimal may have been rounded when it was read, but it is only taken if it has the digits that are
written, at their scale. Dropping zeros could take the counter of that scale past its end; no
decimal is read from such a text.
-/

namespace SqlFront

open Decimal Literal

namespace Numeral

variable {numeral : Numeral} {significand : Significand} {scale : Int} {reader : Reader}
  {value : Decimal}

/-- The number that the parts stand for, without its sign. -/
def magnitude (numeral : Numeral) : ℚ :=
  digitsValue 0 numeral.digits /
    10 ^ ((numeral.fraction.length : Int) - numeral.exponent.getD 0)

theorem magnitude_nonneg (numeral : Numeral) : 0 ≤ numeral.magnitude :=
  div_nonneg (Nat.cast_nonneg _) (zpow_nonneg (by norm_num) _)

/-- As long as the counter of the scale does not pass its end, what is left after the zeros are
dropped is the same number. -/
theorem magnitude_of_not_overflows (h : numeral.significand? = some significand)
    (hs : numeral.scale? = some scale)
    (inside : overflows numeral.digits.reverse scale = false) :
    significand.magnitude = numeral.magnitude := by
  obtain ⟨found, hfound, rfl⟩ := significand?_eq_some.mp h
  obtain rfl := Option.some.inj (hfound.symm.trans hs)
  obtain ⟨value, fits⟩ := scale?_eq_some.mp hs
  have kept := wrapInt64_of_not_overflows fits inside
  rw [Significand.magnitude, magnitude, kept, ← value, digitsValue_significantDigits numeral.digits,
    zpow_sub₀ (by norm_num), zpow_natCast, Nat.cast_mul, Nat.cast_pow, Nat.cast_ofNat]
  field_simp

/-- The digits in front of the point fit into a coefficient, and the exponent is no larger than a
scale, if a decimal is read from them. -/
theorem small_of_decimal? (lawful : reader.Lawful) (h : numeral.decimal? reader = some value) :
    digitsValue 0 numeral.whole ≤ maxCoefficient ∧
      (numeral.exponent.getD 0).natAbs ≤ maxScale := by
  unfold decimal? at h
  split at h
  · rename_i none
    rw [none]
    exact ⟨lawful.plain_whole h, Nat.zero_le _⟩
  · rename_i exponent some
    rw [some]
    exact lawful.scientific_whole h

theorem hasSign_of_decimal? (lawful : reader.Lawful) (h : numeral.decimal? reader = some value) :
    value.HasSign numeral.negative := by
  unfold decimal? at h
  split at h
  · exact lawful.plain_sign h
  · exact lawful.scientific_sign h

/-- Digits that fit into a coefficient up to the point have few zeros in front of it. -/
theorem trailingZeros_lt (areDigits : AreDigits numeral.digits)
    (small : digitsValue 0 numeral.whole ≤ maxCoefficient)
    (positive : 0 < digitsValue 0 numeral.digits) :
    trailingZeros numeral.digits < 29 + numeral.fraction.length := by
  rw [digitsValue_significantDigits] at positive
  have fraction := digitsValue_lt (areDigits_append.mp areDigits).2
  apply (Nat.pow_lt_pow_iff_right (by decide : 1 < 10)).mp
  calc 10 ^ trailingZeros numeral.digits
      ≤ digitsValue 0 (significantDigits numeral.digits) * 10 ^ trailingZeros numeral.digits :=
        Nat.le_mul_of_pos_left _ (Nat.pos_of_mul_pos_right positive)
    _ = digitsValue 0 numeral.whole * 10 ^ numeral.fraction.length +
          digitsValue 0 numeral.fraction := by
        rw [← digitsValue_significantDigits, digits, digitsValue_append, digitsValue_start]
    _ < digitsValue 0 numeral.whole * 10 ^ numeral.fraction.length +
          10 ^ numeral.fraction.length := Nat.add_lt_add_left fraction _
    _ = (digitsValue 0 numeral.whole + 1) * 10 ^ numeral.fraction.length := by
        rw [Nat.succ_mul]
    _ ≤ 10 ^ 29 * 10 ^ numeral.fraction.length := by
        refine Nat.mul_le_mul_right _ (Nat.le_trans (Nat.succ_le_succ small) ?_)
        decide
    _ = 10 ^ (29 + numeral.fraction.length) := (Nat.pow_add _ _ _).symm

/-- **No decimal is read where the counter of the scale passes its end**, unless it is zero. -/
theorem not_overflows_of_decimal? (lawful : reader.Lawful) (areDigits : AreDigits numeral.digits)
    (hs : numeral.scale? = some scale) (h : numeral.decimal? reader = some value)
    (positive : 0 < digitsValue 0 numeral.digits) :
    overflows numeral.digits.reverse scale = false := by
  obtain ⟨small, near⟩ := small_of_decimal? lawful h
  have few := trailingZeros_lt areDigits small positive
  obtain ⟨rfl, fits⟩ := scale?_eq_some.mp hs
  rw [← Bool.not_eq_true, overflows_reverse_iff fits]
  simp only [maxScale] at near
  omega

/-- What is left of digits from which a decimal is read is the same number. -/
theorem magnitude_of_decimal? (lawful : reader.Lawful) (areDigits : AreDigits numeral.digits)
    (hs : numeral.significand? = some significand) (h : numeral.decimal? reader = some value) :
    significand.magnitude = numeral.magnitude := by
  obtain ⟨scale, hscale, left⟩ := significand?_eq_some.mp hs
  rcases Nat.eq_zero_or_pos (digitsValue 0 numeral.digits) with zero | positive
  · have none : digitsValue 0 significand.digits = 0 := by
      rw [left]
      rw [digitsValue_significantDigits] at zero
      exact (Nat.mul_eq_zero.mp zero).resolve_right (Nat.pow_pos (by decide)).ne'
    rw [Significand.magnitude, magnitude, zero, none]
    simp
  · exact magnitude_of_not_overflows hs hscale
      (not_overflows_of_decimal? lawful areDigits hscale h positive)

/-- A decimal that is read has the digits that are written exactly if it is the number. -/
theorem isOf_iff_of_decimal? (lawful : reader.Lawful) (areDigits : AreDigits numeral.digits)
    (hs : numeral.significand? = some significand) (h : numeral.decimal? reader = some value) :
    significand.isOf value = true ↔ value.value = withSign numeral.negative numeral.magnitude := by
  have trimmed : significand.Trimmed := by
    obtain ⟨scale, -, rfl⟩ := significand?_eq_some.mp hs
    exact trimmed_significantDigits areDigits _
  rw [trimmed.isOf_iff, magnitude_of_decimal? lawful areDigits hs h]
  constructor
  · intro same
    rw [(hasSign_of_decimal? lawful h).value_eq, same]
  · exact natAbs_of_value_eq numeral.magnitude_nonneg

/-- Without an exponent, a number that is the value of a decimal is read exactly. -/
theorem exists_decimal? (lawful : reader.Lawful) (areDigits : AreDigits numeral.digits)
    (nonempty : numeral.whole ≠ []) (none : numeral.exponent = none)
    (h : value.value = withSign numeral.negative numeral.magnitude) :
    ∃ read, numeral.decimal? reader = some read ∧ read.value = value.value := by
  have plain : numeral.magnitude =
      digitsValue 0 (numeral.whole ++ numeral.fraction) / 10 ^ numeral.fraction.length := by
    rw [magnitude, none, Option.getD_none, sub_zero, zpow_natCast]
    rfl
  rw [plain] at h
  rw [decimal?, none]
  exact lawful.plain_exact areDigits nonempty h

end Numeral

namespace WrittenNumber

variable (number : WrittenNumber) (negative : Bool)

/-- The parts of a written number stand for it. -/
theorem magnitude_numeral : (number.numeral negative).magnitude = number.value := by
  have digits := number.digitsValue_numeral negative
  have ten (n : Nat) : (10 : ℚ) ^ n ≠ 0 := pow_ne_zero n (by norm_num)
  have cross : (digitsValue 0 (number.numeral negative).digits : ℚ) / 10 ^ number.places =
      digitsValue 0 (number.whole ++ number.fraction.getD []) /
        10 ^ (number.fraction.getD []).length := by
    rw [div_eq_div_iff (ten _) (ten _)]
    exact_mod_cast digits
  rw [Numeral.magnitude, value, ← cross, length_fraction_numeral, exponent_numeral,
    zpow_sub₀ (by norm_num), zpow_natCast, div_div_eq_mul_div, mul_div_right_comm]

/-- What is left of the digits when the zeros at the ends are dropped. -/
def significand : Significand :=
  ⟨Numeral.significantDigits (number.numeral negative).digits,
    wrapInt64 (number.scale - Numeral.trailingZeros (number.numeral negative).digits)⟩

theorem significand?_eq_some_iff {significand : Significand} :
    (number.numeral negative).significand? = some significand ↔
      fitsInt64 number.scale = true ∧ significand = number.significand negative := by
  rw [Numeral.significand?_eq_some]
  simp only [Numeral.scale?_eq_some, length_fraction_numeral, exponent_numeral]
  constructor
  · rintro ⟨_, ⟨rfl, fits⟩, rfl⟩
    exact ⟨fits, rfl⟩
  · rintro ⟨fits, rfl⟩
    exact ⟨_, ⟨rfl, fits⟩, rfl⟩

/-- Digits alone stand for the number that they are. -/
theorem value_of_areDigits (h : AreDigits number.text) :
    number.value = digitsValue 0 number.text := by
  obtain ⟨text, fraction, exponent⟩ := number.of_areDigits h
  simp [value, text, fraction, exponent, power]

/-- Without an exponent, the scale fits for every text that is not longer than the integers go. -/
theorem fits_of_exponent_eq_none (h : number.exponent = none)
    (short : number.text.length ≤ 9223372036854775807) :
    fitsInt64 number.power = true ∧ fitsInt64 number.scale = true := by
  have zero : number.power = 0 := by rw [power, h]; rfl
  have places : number.places ≤ number.text.length := by
    rw [text, mantissa, List.length_append, List.length_append, WrittenNumber.places]
    cases number.fraction with
    | none => exact Nat.zero_le _
    | some fraction => simp; omega
  rw [scale, zero, fitsInt64_iff, fitsInt64_iff]
  omega

end WrittenNumber

namespace Literal

variable {reader : Reader} (number : WrittenNumber) (negative : Bool)

/-- A minus sign in front of a number is the one that is looked for. -/
theorem readSigned?_signed :
    Numeral.readSigned? (signed negative number.text) = Numeral.read? negative number.text := by
  cases negative with
  | true => rfl
  | false =>
    obtain ⟨c, rest, text, other⟩ := number.exists_text
    rw [signed, if_neg Bool.false_ne_true, text, Numeral.readSigned?]
    rintro digits same
    exact other (List.cons.inj same).1

/-- A number is refused as it is if its exponent or its scale has more than 64 bits; otherwise it is
read, and taken if it has the digits that are written. -/
theorem decimalBy_signed :
    decimalBy reader (signed negative number.text) =
      if fitsInt64 number.power ∧ fitsInt64 number.scale then
        match ((number.numeral negative).decimal? reader).filter
            (number.significand negative).isOf with
        | some value => .ok value
        | none => .error (.inexactNumber (String.ofList (signed negative number.text)))
      else .error (.invalidNumber (String.ofList (signed negative number.text))) := by
  rw [decimalBy]
  simp only [readSigned?_signed, number.read?_text]
  by_cases power : fitsInt64 number.power = true
  · by_cases scale : fitsInt64 number.scale = true
    · have parts := (number.significand?_eq_some_iff negative).mpr ⟨scale, rfl⟩
      cases kept : ((number.numeral negative).decimal? reader).filter
        (number.significand negative).isOf with
      | none => simp [power, scale, parts, kept]
      | some value => simp [power, scale, parts, kept]
    · have none : (number.numeral negative).significand? = none :=
        Option.eq_none_iff_forall_ne_some.mpr fun significand some =>
          scale ((number.significand?_eq_some_iff negative).mp some).1
      simp [power, scale, none]
  · simp [power]

/-- A decimal that is read is taken exactly if it has the value of the number. -/
theorem filter_isOf_eq_some (lawful : reader.Lawful) (fits : fitsInt64 number.scale = true)
    (value : Decimal) :
    ((number.numeral negative).decimal? reader).filter (number.significand negative).isOf =
        some value ↔
      (number.numeral negative).decimal? reader = some value ∧
        value.value = number.signedValue negative := by
  have parts := (number.significand?_eq_some_iff negative).mpr ⟨fits, rfl⟩
  rw [Option.filter_eq_some_iff]
  refine and_congr_right fun read => ?_
  rw [Numeral.isOf_iff_of_decimal? lawful (number.areDigits_numeral negative) parts read,
    number.magnitude_numeral]
  rfl

/-- A number is the decimal that is read, if that has its value. -/
theorem decimalBy_eq_ok (lawful : reader.Lawful) {value : Decimal} :
    decimalBy reader (signed negative number.text) = .ok value ↔
      (fitsInt64 number.power = true ∧ fitsInt64 number.scale = true) ∧
        (number.numeral negative).decimal? reader = some value ∧
        value.value = number.signedValue negative := by
  rw [decimalBy_signed]
  by_cases fits : fitsInt64 number.power = true ∧ fitsInt64 number.scale = true
  · rw [if_pos fits, ← filter_isOf_eq_some number negative lawful fits.2 value]
    split
    · rename_i taken
      simp [fits, taken]
    · rename_i taken
      simp [taken]
  · simp [fits]

/-- What a number is refused for. -/
theorem decimalBy_eq_error (lawful : reader.Lawful) {cause : SemanticCause} :
    decimalBy reader (signed negative number.text) = .error cause ↔
      ¬ (fitsInt64 number.power = true ∧ fitsInt64 number.scale = true) ∧
          cause = .invalidNumber (String.ofList (signed negative number.text)) ∨
        (fitsInt64 number.power = true ∧ fitsInt64 number.scale = true) ∧
          cause = .inexactNumber (String.ofList (signed negative number.text)) ∧
          ∀ value, (number.numeral negative).decimal? reader = some value →
            value.value ≠ number.signedValue negative := by
  rw [decimalBy_signed]
  by_cases fits : fitsInt64 number.power = true ∧ fitsInt64 number.scale = true
  · have taken := filter_isOf_eq_some number negative lawful fits.2
    rw [if_pos fits]
    split
    · rename_i value found
      obtain ⟨read, same⟩ := (taken value).mp found
      simp [fits, read, same]
    · rename_i refused
      have other : ∀ value, (number.numeral negative).decimal? reader = some value →
          value.value ≠ number.signedValue negative := by
        intro value read same
        rw [(taken value).mpr ⟨read, same⟩] at refused
        cases refused
      simp only [fits, Except.error.injEq]
      tauto
  · simp only [fits, if_false, Except.error.injEq]
    tauto

/-- Digits after a sign are read as an integer if it has 64 bits. -/
theorem int64?_signed (h : AreDigits number.text) :
    ∃ n : Int, (n : ℚ) = number.signedValue negative ∧
      int64? (signed negative number.text) = if fitsInt64 n then some n else none := by
  obtain ⟨c, rest, text, -⟩ := number.exists_text
  have ne : number.text ≠ [] := by
    rw [text]
    exact List.cons_ne_nil c rest
  rw [WrittenNumber.signedValue, number.value_of_areDigits h]
  cases negative with
  | true => exact ⟨-digitsValue 0 number.text, by simp [withSign], int64?_minus_of_areDigits h ne⟩
  | false => exact ⟨digitsValue 0 number.text, by simp [withSign], int64?_of_areDigits h ne⟩

theorem map_decimal_ne_int {decoded : Except SemanticCause Decimal} {n : Int} :
    decoded.map Constant.decimal ≠ .ok (.int n) := by
  cases decoded <;> simp [Except.map]

/-- **A number is an integer exactly if it is digits alone and has 64 bits.** -/
theorem numberBy_eq_int {n : Int} :
    numberBy reader negative (String.ofList number.text) = .ok (.int n) ↔
      number.text.all Char.isDigit = true ∧ fitsInt64 n = true ∧
        (n : ℚ) = number.signedValue negative := by
  rw [numberBy, String.toList_ofList]
  by_cases digits : number.text.all Char.isDigit = true
  · obtain ⟨m, value, read⟩ := int64?_signed number negative (areDigits_of_all digits)
    simp only [digits, if_true, read, true_and]
    rw [← value, Int.cast_inj]
    by_cases fits : fitsInt64 m = true
    · simp only [fits, if_true, Except.ok.injEq, Constant.int.injEq]
      constructor
      · rintro rfl
        exact ⟨fits, rfl⟩
      · exact fun h => h.2.symm
    · simp only [fits, Bool.false_eq_true, if_false, map_decimal_ne_int, false_iff]
      rintro ⟨fits', rfl⟩
      exact fits fits'
  · simp only [digits, Bool.false_eq_true, if_false, map_decimal_ne_int, false_and]

/-- Every other number is read as a decimal. -/
theorem numberBy_of_ne_int
    (h : ∀ n, numberBy reader negative (String.ofList number.text) ≠ .ok (.int n)) :
    numberBy reader negative (String.ofList number.text) =
      (decimalBy reader (signed negative number.text)).map .decimal := by
  simp only [numberBy, String.toList_ofList] at h ⊢
  split
  · rename_i n found
    rw [found] at h
    exact absurd rfl (h n)
  · rfl

theorem decimalBy_of_numberBy_eq_ok {constant : Constant}
    (h : numberBy reader negative (String.ofList number.text) = .ok constant)
    (other : ∀ n, constant ≠ .int n) :
    ∃ d, decimalBy reader (signed negative number.text) = .ok d ∧ constant = .decimal d := by
  have noInteger : ∀ n, numberBy reader negative (String.ofList number.text) ≠ .ok (.int n) := by
    intro n same
    rw [h, Except.ok.injEq] at same
    exact other n same
  rw [numberBy_of_ne_int number negative noInteger] at h
  obtain ⟨d, read, rfl⟩ := map_eq_ok.mp h
  exact ⟨d, read, rfl⟩

theorem numberBy_eq_ok (lawful : reader.Lawful) {constant : Constant}
    (h : numberBy reader negative (String.ofList number.text) = .ok constant) :
    (∃ n, constant = .int n) ∨
      ∃ d : Decimal, constant = .decimal d ∧ d.value = number.signedValue negative := by
  by_cases integer : ∃ n, constant = .int n
  · exact .inl integer
  · obtain ⟨d, read, rfl⟩ := decimalBy_of_numberBy_eq_ok number negative h (not_exists.mp integer)
    exact .inr ⟨d, rfl, ((decimalBy_eq_ok number negative lawful).mp read).2.2⟩

theorem decimalBy_of_numberBy_eq_error {cause : SemanticCause}
    (h : numberBy reader negative (String.ofList number.text) = .error cause) :
    decimalBy reader (signed negative number.text) = .error cause := by
  have other : ∀ n, numberBy reader negative (String.ofList number.text) ≠ .ok (.int n) := by
    intro n same
    rw [h] at same
    cases same
  rw [numberBy_of_ne_int number negative other] at h
  cases read : decimalBy reader (signed negative number.text) with
  | ok d =>
    rw [read] at h
    cases h
  | error found =>
    rw [read] at h
    cases h
    rfl

theorem numberBy_eq_error (lawful : reader.Lawful) {cause : SemanticCause}
    (h : numberBy reader negative (String.ofList number.text) = .error cause) :
    cause = .invalidNumber (String.ofList (signed negative number.text)) ∧
        ¬ (fitsInt64 number.power = true ∧ fitsInt64 number.scale = true) ∨
      cause = .inexactNumber (String.ofList (signed negative number.text)) ∧
        fitsInt64 number.power = true ∧ fitsInt64 number.scale = true := by
  have refused := decimalBy_of_numberBy_eq_error number negative h
  rcases (decimalBy_eq_error number negative lawful).mp refused with
    ⟨large, same⟩ | ⟨fits, same, -⟩
  · exact .inl ⟨same, large⟩
  · exact .inr ⟨same, fits⟩

/-- Without an exponent, only what no decimal can hold is refused. -/
theorem ne_of_numberBy_eq_error (lawful : reader.Lawful) (plain : number.exponent = none)
    (short : number.text.length ≤ 9223372036854775807) {cause : SemanticCause}
    (h : numberBy reader negative (String.ofList number.text) = .error cause) (d : Decimal) :
    d.value ≠ number.signedValue negative := by
  intro same
  have fits := number.fits_of_exponent_eq_none plain short
  have noExponent : (number.numeral negative).exponent = none := by
    simp [WrittenNumber.numeral, plain]
  have magnitude : d.value =
      withSign (number.numeral negative).negative (number.numeral negative).magnitude := by
    rw [same, number.magnitude_numeral]
    rfl
  obtain ⟨read, found, value⟩ := Numeral.exists_decimal? lawful (number.areDigits_numeral negative)
    (number.whole_numeral_ne_nil negative) noExponent magnitude
  have refused := decimalBy_of_numberBy_eq_error number negative h
  rcases (decimalBy_eq_error number negative lawful).mp refused with ⟨large, -⟩ | ⟨-, -, other⟩
  · exact large fits
  · exact other read found (value.trans same)

/-- **Numeric literals stand for the numbers that are written.** For every way to read decimals that
keeps its promises, every number token is the text of a number, and with either sign:
- it is an integer exactly if it is digits alone and the number has 64 bits;
- otherwise it is a decimal, which is the number, or it is refused;
- it is invalid only if its exponent or its scale has more than 64 bits;
- without an exponent, it is refused only if no decimal is the number. Here the text is as short as
  texts in memory are: the counter of the scale goes as far as their lengths do. -/
theorem numberBy_exact (lawful : reader.Lawful) {lexer : Lexer} {source : Source}
    {lexemes : List Lexeme} {lexeme : Lexeme} {text : String}
    (h : tokenize lexer source = .ok lexemes) (mem : lexeme ∈ lexemes)
    (token : lexeme.token = .number text) (negative : Bool) :
    ∃ number : WrittenNumber, text.toList = number.text ∧
      (∀ n, numberBy reader negative text = .ok (.int n) ↔
        text.toList.all Char.isDigit = true ∧ fitsInt64 n = true ∧
          (n : ℚ) = number.signedValue negative) ∧
      (∀ constant, numberBy reader negative text = .ok constant →
        (∃ n, constant = .int n) ∨
          ∃ d : Decimal, constant = .decimal d ∧ d.value = number.signedValue negative) ∧
      (∀ cause, numberBy reader negative text = .error cause →
        cause = .invalidNumber (String.ofList (signed negative text.toList)) ∧
            ¬ (fitsInt64 number.power = true ∧ fitsInt64 number.scale = true) ∨
          cause = .inexactNumber (String.ofList (signed negative text.toList)) ∧
            fitsInt64 number.power = true ∧ fitsInt64 number.scale = true) ∧
      (number.exponent = none → text.toList.length ≤ 9223372036854775807 →
        ∀ cause, numberBy reader negative text = .error cause →
          ∀ d : Decimal, d.value ≠ number.signedValue negative) := by
  obtain ⟨number, written⟩ := exists_writtenNumber h mem token
  obtain rfl : text = String.ofList number.text := by rw [← written, String.ofList_toList]
  rw [String.toList_ofList]
  exact ⟨number, rfl, fun n => numberBy_eq_int number negative,
    fun constant => numberBy_eq_ok number negative lawful,
    fun cause => numberBy_eq_error number negative lawful,
    fun plain short cause refused d =>
      ne_of_numberBy_eq_error number negative lawful plain short refused d⟩

/-- The magnitude of the least integer is an integer only after a minus sign. -/
theorem numberBy_exact_of_least_integer :
    let digits := ['9', '2', '2', '3', '3', '7', '2', '0', '3', '6', '8', '5', '4', '7', '7', '5',
      '8', '0', '8']
    let text := String.ofList digits
    tokenize (Lexer.ofDialect .mysql) digits =
        .ok [⟨.number text, ⟨0, 19⟩⟩, ⟨.eof, ⟨19, 19⟩⟩] ∧
      numberBy Decimal.reader true text = .ok (.int (-9223372036854775808)) ∧
      ∃ d : Decimal, numberBy Decimal.reader false text = .ok (.decimal d) ∧
        d.value = 9223372036854775808 := by
  intro digits text
  have tokens : tokenize (Lexer.ofDialect .mysql) digits =
      .ok [⟨.number text, ⟨0, 19⟩⟩, ⟨.eof, ⟨19, 19⟩⟩] := by rfl
  have areDigits : AreDigits digits := areDigits_of_all rfl
  have magnitude : digitsValue 0 digits = 9223372036854775808 := by rfl
  have value (number : WrittenNumber) (written : text.toList = number.text) :
      number.value = 9223372036854775808 := by
    rw [String.toList_ofList] at written
    rw [number.value_of_areDigits (written ▸ areDigits), ← written, magnitude]
    norm_num
  refine ⟨tokens, ?_, ?_⟩
  · obtain ⟨number, written, integer, -⟩ :=
      numberBy_exact reader_lawful tokens List.mem_cons_self rfl true
    refine (integer _).mpr ⟨String.toList_ofList ▸ rfl, rfl, ?_⟩
    rw [WrittenNumber.signedValue, value number written]
    norm_num [withSign]
  · obtain ⟨number, written, integer, taken, -, refused⟩ :=
      numberBy_exact reader_lawful tokens List.mem_cons_self rfl false
    have meant : number.signedValue false = 9223372036854775808 := value number written
    have plain : number.exponent = none := by
      rw [String.toList_ofList] at written
      exact (number.of_areDigits (written ▸ areDigits)).2.2
    have short : text.toList.length ≤ 9223372036854775807 := by
      rw [String.toList_ofList]
      decide
    cases decoded : numberBy Decimal.reader false text with
    | ok constant =>
      rcases taken constant decoded with ⟨n, rfl⟩ | ⟨d, rfl, same⟩
      · obtain ⟨-, fits, same⟩ := (integer n).mp decoded
        rw [meant] at same
        have large : n = 9223372036854775808 := by exact_mod_cast same
        rw [large] at fits
        cases fits
      · exact ⟨d, rfl, same.trans meant⟩
    | error cause =>
      let d : Decimal := ⟨9223372036854775808, 0, by decide⟩
      refine absurd ?_ (refused plain short cause decoded d)
      rw [meant, Decimal.value]
      norm_num [d]

end Literal

end SqlFront
