import SqlFront.Proofs.Significands
import SqlFront.Proofs.Tiling

/-!
Numbers as they are written, and how their parts are found again.

A number is digits with perhaps a point among them, and perhaps an exponent. The scanner takes
exactly such texts for numbers, and the reader of numerals takes them apart at the same places.
-/

namespace SqlFront

open Decimal Literal

/-- A power of ten as it is written: a letter, perhaps a sign, and digits. -/
structure WrittenExponent where
  letter : Char
  sign : List Char
  digits : List Char
  isLetter : letter = 'e' ∨ letter = 'E'
  isSign : sign = [] ∨ sign = ['+'] ∨ sign = ['-']
  areDigits : AreDigits digits
  nonempty : digits ≠ []

namespace WrittenExponent

def text (exponent : WrittenExponent) : List Char :=
  exponent.letter :: exponent.sign ++ exponent.digits

/-- The power of ten that is meant. -/
def power (exponent : WrittenExponent) : Int :=
  if exponent.sign = ['-'] then -(digitsValue 0 exponent.digits : Int)
  else digitsValue 0 exponent.digits

end WrittenExponent

/-- A number as it is written: digits, perhaps a point and digits after it, and perhaps an exponent.
There may be no digits on one side of the point. -/
structure WrittenNumber where
  whole : List Char
  fraction : Option (List Char)
  exponent : Option WrittenExponent
  areDigits : AreDigits (whole ++ fraction.getD [])
  nonempty : whole ++ fraction.getD [] ≠ []

namespace WrittenNumber

/-- The digits with the point. -/
def mantissa (number : WrittenNumber) : List Char :=
  number.whole ++ (number.fraction.map ('.' :: ·)).getD []

def text (number : WrittenNumber) : List Char :=
  number.mantissa ++ (number.exponent.map WrittenExponent.text).getD []

/-- The power of ten that is written, which is zero if there is none. -/
def power (number : WrittenNumber) : Int :=
  (number.exponent.map WrittenExponent.power).getD 0

/-- The number of digits after the point, where a point without digits counts as one with a zero. -/
def places (number : WrittenNumber) : Nat :=
  (number.fraction.map fun digits => max 1 digits.length).getD 0

/-- The power of ten that the digits, as one integer, are divided by. -/
def scale (number : WrittenNumber) : Int :=
  number.places - number.power

/-- The number that is meant: the digits as one integer, with as many places as stand after the
point, times the power of ten. -/
def value (number : WrittenNumber) : ℚ :=
  digitsValue 0 (number.whole ++ number.fraction.getD []) /
    10 ^ (number.fraction.getD []).length * 10 ^ number.power

/-- The number that is meant after a minus sign if `negative`. -/
def signedValue (number : WrittenNumber) (negative : Bool) : ℚ :=
  withSign negative number.value

end WrittenNumber

/-! ### What the scanner takes for a number -/

theorem signText_cases (text : List Char) :
    signText text = [] ∨ signText text = ['+'] ∨ signText text = ['-'] := by
  unfold signText
  split
  · exact .inr (.inl rfl)
  · exact .inr (.inr rfl)
  · exact .inl rfl

theorem areDigits_takeWhile (text : List Char) : AreDigits (text.takeWhile Char.isDigit) :=
  fun _ hc => List.mem_takeWhile_imp hc

theorem exists_writtenExponent {text taken : List Char} (h : exponentText text = some taken) :
    ∃ exponent : Option WrittenExponent,
      taken = (exponent.map WrittenExponent.text).getD [] := by
  cases text with
  | nil =>
    cases h
    exact ⟨none, rfl⟩
  | cons c cs =>
    simp only [exponentText] at h
    split at h
    · rename_i letter
      split at h
      · cases h
      · rename_i digits
        cases h
        exact ⟨some ⟨c, signText cs, _, by simpa using letter, signText_cases cs,
          areDigits_takeWhile _, fun none => digits (List.isEmpty_iff.mpr none)⟩, rfl⟩
    · cases h
      exact ⟨none, rfl⟩

/-- The digits after a point, where the text goes on with a point. -/
def fractionDigits? : List Char → Option (List Char)
  | '.' :: rest => some (rest.takeWhile Char.isDigit)
  | _ => none

theorem fractionText_eq (text : List Char) :
    fractionText text = ((fractionDigits? text).map ('.' :: ·)).getD [] := by
  unfold fractionText
  split
  · rfl
  · rename_i other
    rw [fractionDigits?]
    · rfl
    · exact other

theorem areDigits_fractionDigits? (text : List Char) :
    AreDigits ((fractionDigits? text).getD []) := by
  unfold fractionDigits?
  split
  · exact areDigits_takeWhile _
  · exact List.forall_mem_nil _

/-- What starts like a number has a digit before the point or after it. -/
theorem digits_ne_nil {c : Char} {rest : List Char}
    (h : c.isDigit || (c = '.' && rest.head?.any Char.isDigit)) :
    (c :: rest).takeWhile Char.isDigit ++ (fractionDigits?
      ((c :: rest).drop ((c :: rest).takeWhile Char.isDigit).length)).getD [] ≠ [] := by
  by_cases hc : c.isDigit
  · simp [hc]
  · obtain ⟨rfl, next⟩ : c = '.' ∧ rest.head?.any Char.isDigit := by simpa [hc] using h
    cases rest with
    | nil => cases next
    | cons d rest =>
      have hd : d.isDigit = true := next
      have none : ('.' :: d :: rest).takeWhile Char.isDigit = [] := rfl
      simp [none, fractionDigits?, hd]

/-- A number token is a written number. -/
theorem exists_writtenNumber_of_numberPiece {c : Char} {rest : List Char} {piece : Piece}
    (start : c.isDigit || (c = '.' && rest.head?.any Char.isDigit))
    (h : numberPiece (c :: rest) = .ok piece) :
    ∃ number : WrittenNumber, piece.kind = .token (.number (String.ofList number.text)) := by
  have nonempty := digits_ne_nil start
  simp only [numberPiece, fractionText_eq] at h
  split at h
  · rename_i taken exponentRead
    obtain ⟨exponent, rfl⟩ := exists_writtenExponent exponentRead
    cases h
    exact ⟨⟨_, _, exponent,
      areDigits_append.mpr ⟨areDigits_takeWhile _, areDigits_fractionDigits? _⟩, nonempty⟩, rfl⟩
  · cases h

/-- No other scanner takes a number. -/
theorem Scanned.number_inv {input : List Char} {piece : Piece} {text : String}
    (h : Scanned input piece) (number : piece.kind = .token (.number text)) :
    ∃ c rest, (c.isDigit || (c = '.' && rest.head?.any Char.isDigit)) ∧
      numberPiece (c :: rest) = .ok piece := by
  cases h with
  | number start h => exact ⟨_, _, start, h⟩
  | string _ h =>
    unfold stringPiece at h
    split at h
    · cases h
      cases number
    · cases h
  | quotedName h =>
    unfold quotedNamePiece at h
    split at h
    · cases h
    · cases h
      cases number
    · cases h
  | hexString _ h =>
    simp only [hexStringPiece] at h
    split at h
    · cases h
    · split at h
      · cases h
        cases number
      · cases h
  | hexNumber _ h =>
    simp only [hexNumberPiece] at h
    split at h
    · cases h
    · cases h
      cases number
  | parameter => cases number
  | labelled _ h =>
    simp only [placeholderPiece] at h
    split at h
    · cases h
    · cases h
      cases number
  | word =>
    simp only [wordPiece] at number
    split at number <;> cases number
  | symbol h =>
    unfold symbolPiece at h
    split at h
    · cases h
      cases number
    · split at h
      · cases h
        cases number
      · cases h

/-- Every number token of a text is a written number. -/
theorem exists_writtenNumber {lexer : Lexer} {source : Source} {lexemes : List Lexeme}
    {lexeme : Lexeme} {text : String} (h : tokenize lexer source = .ok lexemes)
    (mem : lexeme ∈ lexemes) (token : lexeme.token = .number text) :
    ∃ number : WrittenNumber, text.toList = number.text := by
  obtain ⟨pieces, cuts, -, rfl⟩ := Lexer.lexemes_eq_ok.mp (mapError_eq_ok.mp h)
  rcases List.mem_append.mp mem with mem | last
  · obtain ⟨left, right, split⟩ := List.append_of_mem mem
    obtain ⟨before, piece, after, rfl, -, made⟩ := Piece.exists_piece_of_lexemesOf split
    have number : piece.kind = .token (.number text) := by
      unfold Piece.lexeme? at made
      split at made
      · cases made
      · rename_i kind
        cases made
        rw [kind, ← token]
      · cases made
        cases token
    have scanned := cuts.scanned piece List.mem_append_cons_self
    rw [number] at scanned
    obtain ⟨input, scanned⟩ := scanned.resolve_left PieceKind.noConfusion
    obtain ⟨c, rest, start, h⟩ := scanned.number_inv number
    obtain ⟨written, kind⟩ := exists_writtenNumber_of_numberPiece start h
    rw [number] at kind
    cases kind
    exact ⟨written, String.toList_ofList⟩
  · obtain rfl := List.mem_singleton.mp last
    cases token

/-! ### Taking a number apart -/

theorem Decimal.AreDigits.not_mem {digits : List Char} {c : Char} (h : AreDigits digits)
    (other : c.isDigit = false) : c ∉ digits := by
  intro mem
  rw [h c mem] at other
  cases other

namespace Numeral

variable {test : Char → Bool} {before text : List Char} {c : Char}

theorem splitAt?_of_forall (h : ∀ c ∈ text, test c = false) : splitAt? test text = none := by
  have all : text.dropWhile (!test ·) = [] :=
    List.dropWhile_eq_nil_iff.mpr fun c mem => by rw [h c mem]; rfl
  rw [splitAt?, all]

theorem splitAt?_append_cons (h : ∀ c ∈ before, test c = false) (mark : test c = true)
    (after : List Char) :
    splitAt? test (before ++ c :: after) = some (before, after) := by
  have front : ∀ c ∈ before, (!test c) = true := fun c mem => by rw [h c mem]; rfl
  rw [splitAt?, List.dropWhile_append_of_pos front, List.takeWhile_append_of_pos front]
  simp [mark]

end Numeral

theorem digits?_of_areDigits {digits : List Char} (h : AreDigits digits) (ne : digits ≠ []) :
    digits? digits = some (digitsValue 0 digits) := by
  have all : digits.all Char.isDigit = true := List.all_eq_true.mpr h
  simp [digits?, all, ne]

/-- Digits without a sign are read as an integer if it has 64 bits. -/
theorem int64?_of_areDigits {digits : List Char} (h : AreDigits digits) (ne : digits ≠ []) :
    int64? digits =
      if fitsInt64 (digitsValue 0 digits) then some (digitsValue 0 digits : Int) else none := by
  have minus := h.not_mem (c := '-') rfl
  have plus := h.not_mem (c := '+') rfl
  rw [int64?]
  · rw [digits?_of_areDigits h ne]
    rfl
  · rintro rest rfl
    exact minus List.mem_cons_self
  · rintro rest rfl
    exact plus List.mem_cons_self

theorem int64?_minus_of_areDigits {digits : List Char} (h : AreDigits digits) (ne : digits ≠ []) :
    int64? ('-' :: digits) =
      if fitsInt64 (-digitsValue 0 digits) then some (-digitsValue 0 digits : Int) else none := by
  rw [int64?, digits?_of_areDigits h ne]
  rfl

/-- An exponent is read if it has 64 bits. -/
theorem WrittenExponent.int64?_text (exponent : WrittenExponent) :
    int64? (exponent.sign ++ exponent.digits) =
      if fitsInt64 exponent.power then some exponent.power else none := by
  obtain ⟨letter, sign, digits, -, sign, areDigits, nonempty⟩ := exponent
  rcases sign with rfl | rfl | rfl
  · exact int64?_of_areDigits areDigits nonempty
  · have value := digits?_of_areDigits areDigits nonempty
    simp [int64?, power, value]
  · exact int64?_minus_of_areDigits areDigits nonempty

/-! ### The parts that are found -/

/-- The digits of a part, where none count as a zero. -/
def filled (digits : List Char) : List Char :=
  if digits.isEmpty then ['0'] else digits

theorem areDigits_filled {digits : List Char} (h : AreDigits digits) :
    AreDigits (filled digits) := by
  unfold filled
  split
  · exact areDigits_zeros 1
  · exact h

theorem filled_ne_nil (digits : List Char) : filled digits ≠ [] := by
  unfold filled
  split
  · exact List.cons_ne_nil _ _
  · rename_i some
    exact fun none => some (List.isEmpty_iff.mpr none)

theorem length_filled (digits : List Char) : (filled digits).length = max 1 digits.length := by
  cases digits with
  | nil => rfl
  | cons c digits => simp [filled]

/-- A zero for digits that are missing before the point is not counted. -/
theorem digitsValue_filled (digits : List Char) :
    digitsValue 0 (filled digits) = digitsValue 0 digits := by
  cases digits <;> rfl

/-- A zero for digits that are missing after the point is a place without a value. -/
theorem digitsValue_filled_mul (start : Nat) (digits : List Char) :
    digitsValue start (filled digits) * 10 ^ digits.length =
      digitsValue start digits * 10 ^ (filled digits).length := by
  cases digits with
  | nil => simpa [digitsValue, filled] using digitsValue_zeros start 1
  | cons c digits => rfl

namespace WrittenNumber

variable (number : WrittenNumber) (negative : Bool)

/-- The parts of a written number. -/
def numeral : Numeral where
  negative := negative
  whole := number.fraction.elim number.whole fun _ => filled number.whole
  fraction := number.fraction.elim [] filled
  exponent := number.exponent.map WrittenExponent.power

theorem areDigits_numeral : AreDigits (number.numeral negative).digits := by
  obtain ⟨before, after⟩ := areDigits_append.mp number.areDigits
  refine areDigits_append.mpr ⟨?_, ?_⟩
  · simp only [numeral]
    cases number.fraction with
    | none => exact before
    | some fraction => exact areDigits_filled before
  · simp only [numeral]
    cases part : number.fraction with
    | none => exact List.forall_mem_nil _
    | some fraction =>
      rw [part] at after
      exact areDigits_filled after

theorem whole_numeral_ne_nil : (number.numeral negative).whole ≠ [] := by
  have nonempty := number.nonempty
  simp only [numeral]
  cases part : number.fraction with
  | none => simpa [part] using nonempty
  | some fraction => exact filled_ne_nil _

theorem length_fraction_numeral : (number.numeral negative).fraction.length = number.places := by
  simp only [numeral, places]
  cases number.fraction with
  | none => rfl
  | some fraction => exact length_filled fraction

theorem exponent_numeral : (number.numeral negative).exponent.getD 0 = number.power := rfl

/-- The parts are found on both sides of the point. -/
theorem mantissa?_mantissa : Numeral.mantissa? number.mantissa =
    some ((number.numeral negative).whole, (number.numeral negative).fraction) := by
  have digits := List.all_eq_true.mpr (number.areDigits_numeral negative)
  have nonempty := number.whole_numeral_ne_nil negative
  have before := (areDigits_append.mp number.areDigits).1
  have noPoint : ∀ c ∈ number.whole, (c == '.') = false := fun c mem =>
    beq_false_of_ne fun point => before.not_mem (c := '.') rfl (point ▸ mem)
  simp only [Numeral.digits, numeral] at digits nonempty ⊢
  rw [Numeral.mantissa?, mantissa]
  cases part : number.fraction with
  | none =>
    rw [part] at digits nonempty
    have split := Numeral.splitAt?_of_forall noPoint
    simp_all
  | some fraction =>
    rw [part] at digits nonempty
    have split := Numeral.splitAt?_append_cons noPoint (beq_self_eq_true '.') fraction
    simp_all [filled]

/-- There are only digits and a point in front of an exponent. -/
theorem mem_mantissa {c : Char} (h : c ∈ number.mantissa) : c.isDigit = true ∨ c = '.' := by
  obtain ⟨before, after⟩ := areDigits_append.mp number.areDigits
  rcases List.mem_append.mp h with whole | rest
  · exact .inl (before c whole)
  · cases part : number.fraction with
    | none => simp [part] at rest
    | some fraction =>
      rw [part] at rest after
      rcases List.mem_cons.mp rest with point | digit
      · exact .inr point
      · exact .inl (after c digit)

theorem mantissa_ne_nil : number.mantissa ≠ [] := by
  intro none
  obtain ⟨whole, rest⟩ := List.append_eq_nil_iff.mp none
  apply number.nonempty
  cases part : number.fraction with
  | none => simpa using whole
  | some fraction => simp [part] at rest

/-- A number has no sign of its own. -/
theorem exists_text : ∃ c rest, number.text = c :: rest ∧ c ≠ '-' := by
  obtain ⟨c, front, split⟩ := List.exists_cons_of_ne_nil number.mantissa_ne_nil
  refine ⟨c, front ++ (number.exponent.map WrittenExponent.text).getD [], ?_, ?_⟩
  · rw [text, split, List.cons_append]
  · rintro rfl
    have known := number.mem_mantissa (split ▸ List.mem_cons_self)
    revert known
    decide

/-- Digits alone are all in front of the point. -/
theorem of_areDigits (h : AreDigits number.text) :
    number.text = number.whole ∧ number.fraction = none ∧ number.exponent = none := by
  have fraction : number.fraction = none := by
    cases part : number.fraction with
    | none => rfl
    | some fraction =>
      exact absurd (by simp [text, mantissa, part]) (h.not_mem (c := '.') rfl)
  have exponent : number.exponent = none := by
    cases part : number.exponent with
    | none => rfl
    | some exponent =>
      have letter : exponent.letter.isDigit = false := by
        rcases exponent.isLetter with e | e <;> rw [e] <;> rfl
      exact absurd (by simp [text, part, WrittenExponent.text]) (h.not_mem letter)
  exact ⟨by simp [text, mantissa, fraction, exponent], fraction, exponent⟩

/-- **A written number is read in its parts**, if its exponent has 64 bits. -/
theorem read?_text : Numeral.read? negative number.text =
    if fitsInt64 number.power then some (number.numeral negative) else none := by
  have parts := number.mantissa?_mantissa negative
  have noLetter : ∀ c ∈ number.mantissa, (c == 'e' || c == 'E') = false := by
    intro c mem
    have known := number.mem_mantissa mem
    rw [Bool.or_eq_false_iff, beq_eq_false_iff_ne, beq_eq_false_iff_ne]
    constructor
    all_goals
      rintro rfl
      revert known
      decide
  rw [Numeral.read?, text, power]
  cases part : number.exponent with
  | none =>
    have split := Numeral.splitAt?_of_forall noLetter
    have fits : fitsInt64 0 = true := rfl
    simp [split, parts, numeral, part, fits]
  | some exponent =>
    have mark : (exponent.letter == 'e' || exponent.letter == 'E') = true := by
      simpa using exponent.isLetter
    have split :=
      Numeral.splitAt?_append_cons noLetter mark (exponent.sign ++ exponent.digits)
    simp only [Option.map_some, Option.getD_some, WrittenExponent.text, List.cons_append, split,
      exponent.int64?_text]
    by_cases fits : fitsInt64 exponent.power = true
    · simp [fits, parts, numeral, part]
    · simp [fits]

/-- The digits of the parts are those that are written, up to zeros that are filled in. -/
theorem digitsValue_numeral :
    digitsValue 0 (number.numeral negative).digits * 10 ^ (number.fraction.getD []).length =
      digitsValue 0 (number.whole ++ number.fraction.getD []) * 10 ^ number.places := by
  rw [← number.length_fraction_numeral negative, Numeral.digits, digitsValue_append,
    digitsValue_append]
  simp only [numeral]
  cases number.fraction with
  | none => rfl
  | some fraction =>
    simp only [Option.elim_some, digitsValue_filled, Option.getD_some]
    exact digitsValue_filled_mul _ fraction

end WrittenNumber

end SqlFront
