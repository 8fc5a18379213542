import SqlFront.Proofs.NumberLiterals

/-!
Where the counter of the scale passes its end.

The exponent is taken from the scale with a check, and each zero that is dropped takes one more
without it. An exponent near the end of the integers leaves less room below the scale than there are
zeros. Only then does the counter pass its end, and no such text stands for a decimal, zero apart.
-/

namespace SqlFront

open Decimal Literal

namespace Numeral

theorem trailingZeros_le (digits : List Char) : trailingZeros digits ≤ digits.length := by
  have within := (List.takeWhile_sublist (· == '0') (l := digits.reverse)).length_le
  rwa [List.length_reverse] at within

end Numeral

namespace WrittenNumber

variable (number : WrittenNumber) (negative : Bool)

theorem length_whole_numeral :
    (number.numeral negative).whole.length ≤ max 1 number.whole.length := by
  simp only [numeral]
  cases number.fraction with
  | none => exact le_max_right _ _
  | some fraction => exact (length_filled number.whole).le

/-- Digits in front of the point and an exponent that stay below the end together leave room for all
zeros. -/
theorem not_overflows_of_small (fits : fitsInt64 number.scale = true)
    (small : number.power + (max 1 number.whole.length : Nat) ≤ 9223372036854775808) :
    Numeral.overflows (number.numeral negative).digits.reverse number.scale = false := by
  have zeros := Numeral.trailingZeros_le (number.numeral negative).digits
  have whole := number.length_whole_numeral negative
  have places := number.length_fraction_numeral negative
  have all : (number.numeral negative).digits.length =
      (number.numeral negative).whole.length + (number.numeral negative).fraction.length :=
    List.length_append
  rw [← Bool.not_eq_true, Numeral.overflows_reverse_iff fits, scale]
  omega

end WrittenNumber

/-- **Where the counter of the scale passes its end.** It does so exactly if the scale less the
zeros at the end of the digits is below the integers of 64 bits, and holds that difference
otherwise. There is room for all zeros unless the digits in front of the point reach the end
together with the exponent. Whichever way decimals are read, a text that is taken for a decimal
other than zero has not led past the end. -/
theorem Literal.scale_overflows_iff {reader : Decimal.Reader} (lawful : reader.Lawful)
    {lexer : Lexer} {source : Source} {lexemes : List Lexeme} {lexeme : Lexeme} {text : String}
    (h : tokenize lexer source = .ok lexemes) (mem : lexeme ∈ lexemes)
    (token : lexeme.token = .number text) (negative : Bool) :
    ∃ number : WrittenNumber, text.toList = number.text ∧
      ∀ scale, (number.numeral negative).scale? = some scale →
        let digits := (number.numeral negative).digits
        (Numeral.overflows digits.reverse scale = true ↔
          scale - Numeral.trailingZeros digits < -9223372036854775808) ∧
        (Numeral.overflows digits.reverse scale = false →
          (Numeral.dropZeros digits.reverse scale).2 = scale - Numeral.trailingZeros digits) ∧
        (number.power + (max 1 number.whole.length : Nat) ≤ 9223372036854775808 →
          Numeral.overflows digits.reverse scale = false) ∧
        (∀ d, numberBy reader negative text = .ok (.decimal d) → number.value ≠ 0 →
          Numeral.overflows digits.reverse scale = false) := by
  obtain ⟨number, written⟩ := exists_writtenNumber h mem token
  obtain rfl : text = String.ofList number.text := by rw [← written, String.ofList_toList]
  refine ⟨number, written, fun scale left => ?_⟩
  obtain ⟨difference, fits⟩ := Numeral.scale?_eq_some.mp left
  rw [number.length_fraction_numeral, number.exponent_numeral] at difference
  intro digits
  refine ⟨Numeral.overflows_reverse_iff fits, fun inside => ?_, fun small => ?_,
    fun d taken ne => ?_⟩
  · rw [Numeral.dropZeros_snd fits]
    exact Numeral.wrapInt64_of_not_overflows fits inside
  · subst difference
    exact number.not_overflows_of_small negative fits small
  · obtain ⟨_, read, -⟩ := decimalBy_of_numberBy_eq_ok number negative taken nofun
    obtain ⟨-, read, -⟩ := (decimalBy_eq_ok number negative lawful).mp read
    refine Numeral.not_overflows_of_decimal? lawful (number.areDigits_numeral negative) left read ?_
    refine Nat.pos_of_ne_zero fun zero => ne ?_
    rw [← number.magnitude_numeral negative, Numeral.magnitude, zero, Nat.cast_zero, zero_div]

/-- One less than the largest exponent leaves room for two zeros, and then the counter is at its
end. -/
theorem Literal.scale_overflows_iff_of_two_zeros :
    let source := ['1', '0', '0', 'e', '9', '2', '2', '3', '3', '7', '2', '0', '3', '6', '8', '5',
      '4', '7', '7', '5', '8', '0', '6']
    let text := String.ofList source
    let numeral : Numeral := ⟨false, ['1', '0', '0'], [], some 9223372036854775806⟩
    tokenize (Lexer.ofDialect .mysql) source =
        .ok [⟨.number text, ⟨0, 23⟩⟩, ⟨.eof, ⟨23, 23⟩⟩] ∧
      Numeral.read? false source = some numeral ∧
      numeral.scale? = some (-9223372036854775806) ∧
      Numeral.overflows numeral.digits.reverse (-9223372036854775806) = false ∧
      (Numeral.dropZeros numeral.digits.reverse (-9223372036854775806)).2 =
        -9223372036854775808 := by
  intro source text numeral
  have tokens : tokenize (Lexer.ofDialect .mysql) source =
      .ok [⟨.number text, ⟨0, 23⟩⟩, ⟨.eof, ⟨23, 23⟩⟩] := by rfl
  have parts : Numeral.read? false source = some numeral := by rfl
  have left : numeral.scale? = some (-9223372036854775806) := by rfl
  have zeros : Numeral.trailingZeros numeral.digits = 2 := by rfl
  obtain ⟨number, written, counted⟩ :=
    scale_overflows_iff Decimal.reader_lawful tokens List.mem_cons_self rfl false
  have same : number.numeral false = numeral := by
    rw [String.toList_ofList] at written
    rw [written, number.read?_text] at parts
    split at parts
    · exact Option.some.inj parts
    · cases parts
  rw [same] at counted
  obtain ⟨passes, kept, -, -⟩ := counted _ left
  have inside : Numeral.overflows numeral.digits.reverse (-9223372036854775806) = false := by
    rw [← Bool.not_eq_true, passes, zeros]
    decide
  refine ⟨tokens, parts, left, inside, ?_⟩
  rw [kept inside, zeros]
  rfl

/-- The largest exponent of 64 bits leaves one zero no room, and two zeros are dropped. -/
theorem Literal.scale_overflows_of_two_zeros :
    let source := ['1', '0', '0', 'e', '9', '2', '2', '3', '3', '7', '2', '0', '3', '6', '8', '5',
      '4', '7', '7', '5', '8', '0', '7']
    let text := String.ofList source
    tokenize (Lexer.ofDialect .mysql) source =
        .ok [⟨.number text, ⟨0, 23⟩⟩, ⟨.eof, ⟨23, 23⟩⟩] ∧
      ∃ numeral, Numeral.read? false source = some numeral ∧
        numeral.scale? = some (-9223372036854775807) ∧
        Numeral.overflows numeral.digits.reverse (-9223372036854775807) = true ∧
        (Numeral.dropZeros numeral.digits.reverse (-9223372036854775807)).2 =
          9223372036854775807 := by
  intro source text
  exact ⟨rfl, ⟨false, ['1', '0', '0'], [], some 9223372036854775807⟩, rfl, rfl, rfl, rfl⟩

end SqlFront
