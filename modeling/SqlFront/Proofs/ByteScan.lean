import SqlFront.Proofs.PassedBytes
import SqlFront.Proofs.Tiling

/-!
The scan of the bytes of a text does what the lexer does with its characters.

From a place between two characters, each step of the scan is that of the lexer from there and ends
at such a place again; the ranges that are copied lie between such places, and none of them cuts a
character.
-/

namespace SqlFront

open Scan Piece

/-! ### Tokens -/

/-- The place between two parts of a text. -/
def placeBetween (before after : List Char) : BytePlace := ⟨byteLength before, utf8Bytes after⟩

@[simp] theorem placeBetween_offset (before after : List Char) :
    (placeBetween before after).offset = byteLength before := rfl

@[simp] theorem placeBetween_bytes (before after : List Char) :
    (placeBetween before after).bytes = utf8Bytes after := rfl

/-- What a scan reads behind a text, at the start of another one, is the piece that the lexer finds
there, and it stops behind this piece. -/
inductive Agrees (source : Source) (before input : List Char) :
    Except Misfit Piece → Except Halt Taken → Prop where
  | taken (text rest : List Char) (token? : Option Token) (copied : List Span) :
      input = text ++ rest → source.CopiesParts copied →
      Agrees source before input (.ok ⟨text, token?.elim .parameter .token⟩)
        (.ok ⟨token?, placeBetween (before ++ text) rest, copied⟩)
  | misfit (cause : SyntaxCause) (n : Nat) :
      Agrees source before input (.error (cause, n))
        (.error (.fault ⟨cause, some (byteLength before + n)⟩))

section

variable {source : Source} {before input : List Char}

theorem Agrees.ite {P Q : Prop} [Decidable P] [Decidable Q] {piece piece' : Except Misfit Piece}
    {taken taken' : Except Halt Taken} (hiff : Q ↔ P)
    (hthen : P → Agrees source before input piece taken)
    (helse : ¬P → Agrees source before input piece' taken') :
    Agrees source before input (if P then piece else piece') (if Q then taken else taken') := by
  by_cases h : P
  · rw [if_pos h, if_pos (hiff.mpr h)]
    exact hthen h
  · rw [if_neg h, if_neg (mt hiff.mp h)]
    exact helse h

/-- A token that is copied from a part of its text. -/
theorem agrees_copy (token : String → Token) {lead part tail text rest : List Char} {range : Span}
    {next : BytePlace} (hsource : source = before ++ input) (hinput : input = text ++ rest)
    (htext : text = lead ++ part ++ tail) (hstart : range.start = byteLength (before ++ lead))
    (hstop : range.stop = byteLength (before ++ lead ++ part))
    (hnext : next = placeBetween (before ++ text) rest) :
    Agrees source before input (.ok ⟨text, .token (token (String.ofList part))⟩)
      (.ok (copy source token range next)) := by
  have whole : source = before ++ lead ++ part ++ (tail ++ rest) := by
    simp [hsource, hinput, htext]
  have covers : range =
      ⟨byteLength (before ++ lead), byteLength (before ++ lead) + byteLength part⟩ := by
    rw [← byteLength_append, ← hstart, ← hstop]
  have slice : source.slice range = String.ofList part := by
    rw [covers, whole]
    exact Source.slice_of_append ..
  rw [copy, slice, hnext]
  exact .taken text rest (some _) _ hinput
    (List.forall_mem_singleton.mpr ⟨part, before ++ lead, tail ++ rest, whole, covers⟩)

theorem readString_agrees {lead front rest : List Char} (kind : StringKind) (escapes : Bool)
    (hlead : byteLength lead = lead.length) (hfront : before ++ lead = front)
    (hsource : source = before ++ (lead ++ kind.quote :: rest)) :
    Agrees source before (lead ++ kind.quote :: rest) (stringPiece lead kind escapes rest)
      (readString source kind escapes (placeBetween front (kind.quote :: rest))) := by
  subst hfront
  have hquote : kind.quote.toNat < 128 := by cases kind <;> decide
  obtain ⟨b, -, size, hbytes⟩ := utf8Bytes_ascii hquote rest
  rw [stringPiece, readString, placeBetween, hbytes, List.drop_one, List.tail_cons,
    passString_utf8Bytes _ _ hquote]
  cases hbody : stringBody kind.quote escapes rest with
  | none =>
    rw [byteLength_append, hlead]
    exact .misfit _ _
  | some body =>
    obtain ⟨more, rfl⟩ := stringBody_isPrefix hbody
    have places : byteLength before + byteLength lead + 1 + byteLength body =
        byteLength (before ++ (lead ++ [kind.quote]) ++ body) := by
      simp [byteLength_append, byteLength, size, Nat.add_assoc]
    refine agrees_copy (.string · kind) hsource
      (show _ = lead ++ kind.quote :: body ++ [kind.quote] ++ more by simp)
      (show _ = lead ++ [kind.quote] ++ body ++ [kind.quote] by simp) ?_ ?_ ?_
    · simp [byteLength_append, byteLength, size, Nat.add_assoc]
    · rw [← places, byteLength_append, Nat.add_sub_cancel]
    · simp [placeBetween, byteLength_append, byteLength, size, Nat.add_assoc]

theorem readQuotedName_agrees {first close : Char} {rest : List Char} (hfirst : first.toNat < 128)
    (hclose : close.toNat < 128) (hsource : source = before ++ first :: rest) :
    Agrees source before (first :: rest) (quotedNamePiece first close rest)
      (readQuotedName source close (placeBetween before (first :: rest))) := by
  obtain ⟨b, -, size, hbytes⟩ := utf8Bytes_ascii hfirst rest
  have behind : byteLength before + 1 = byteLength (before ++ [first]) := by
    simp [byteLength_append, byteLength, size]
  have whole : source = before ++ [first] ++ [] ++ rest := by simp [hsource]
  have passes := passName_utf8Bytes hclose (byteLength before) _ _ _ whole behind
    (by simpa using behind) [] []
  rw [quotedNamePiece, readQuotedName, placeBetween, hbytes]
  simp only [List.drop_one, List.tail_cons]
  generalize hname : quotedName close rest = found at passes
  generalize passName source close (byteLength before) (byteLength before + 1) [] []
    (byteLength before + 1) (utf8Bytes rest) = passed at passes ⊢
  cases passes with
  | unterminated => exact .misfit _ 0
  | passed name text ranges parts =>
    obtain ⟨more, rfl⟩ := quotedName_isPrefix hname
    cases name with
    | nil => exact .misfit _ 0
    | cons c name =>
      have next : (⟨byteLength before + 1 + byteLength text,
          utf8Bytes ((text ++ more).drop text.length)⟩ : BytePlace) =
          placeBetween (before ++ first :: text) more := by
        simp [placeBetween, byteLength_append, byteLength, size, Nat.add_assoc]
      rw [next]
      exact .taken _ _ (some _) _ (by simp) parts

theorem readHexString_agrees {letter : Char} {rest : List Char} (hletter : letter.toNat < 128)
    (hsource : source = before ++ letter :: '\'' :: rest) :
    Agrees source before (letter :: '\'' :: rest) (hexStringPiece letter rest)
      (readHexString source (placeBetween before (letter :: '\'' :: rest))) := by
  obtain ⟨b, -, size, hbytes⟩ := utf8Bytes_ascii hletter ('\'' :: rest)
  obtain ⟨d, -, quote, htail⟩ := utf8Bytes_ascii (c := '\'') (by decide) rest
  have opening : byteLength [letter, '\''] = 2 := by simp [byteLength, size, quote]
  have digits : byteLength (rest.takeWhile isHexDigit) = (rest.takeWhile isHexDigit).length :=
    byteLength_of_ascii fun c hc => Literal.toNat_lt_of_isHexDigit (List.mem_takeWhile_imp hc)
  have whole := List.takeWhile_append_dropWhile (p := isHexDigit) (l := rest)
  rw [hexStringPiece, readHexString, placeBetween, hbytes, htail]
  simp only [List.drop_succ_cons, List.drop_zero, passHexString_utf8Bytes]
  cases hrest : rest.dropWhile isHexDigit with
  | nil => exact .misfit _ 0
  | cons c more =>
    rw [hrest] at whole
    by_cases hc : c = '\''
    · subst hc
      refine agrees_copy .hexString hsource
        (show _ = letter :: '\'' :: rest.takeWhile isHexDigit ++ ['\''] ++ more by simp [whole])
        (show _ = [letter, '\''] ++ rest.takeWhile isHexDigit ++ ['\''] by simp) ?_ ?_ ?_
      · rw [byteLength_append, opening]
      · simp only [byteLength_append, opening]
        omega
      · have length :
            byteLength (before ++ (letter :: '\'' :: rest.takeWhile isHexDigit ++ ['\''])) =
              byteLength before + 2 + (rest.takeWhile isHexDigit).length + 1 := by
          simp only [byteLength_append, byteLength, size, quote]
          omega
        rw [placeBetween, length]
    · simp only [hc, if_false]
      have place : byteLength before + 2 + (rest.takeWhile isHexDigit).length =
          byteLength before + ((rest.takeWhile isHexDigit).length + 2) := by omega
      rw [place]
      exact .misfit _ _

theorem readHexNumber_agrees {zero letter : Char} {rest : List Char} (hzero : zero.toNat < 128)
    (hletter : letter.toNat < 128) (hsource : source = before ++ zero :: letter :: rest) :
    Agrees source before (zero :: letter :: rest) (hexNumberPiece zero letter rest)
      (readHexNumber source (placeBetween before (zero :: letter :: rest))) := by
  obtain ⟨b, -, first, hbytes⟩ := utf8Bytes_ascii hzero (letter :: rest)
  obtain ⟨d, -, second, htail⟩ := utf8Bytes_ascii hletter rest
  have opening : byteLength [zero, letter] = 2 := by simp [byteLength, first, second]
  have length : byteLength (before ++ [zero, letter] ++ rest.takeWhile isHexDigit) =
      byteLength before + 2 + byteLength (rest.takeWhile isHexDigit) := by
    simp only [byteLength_append, opening]
  rw [hexNumberPiece, readHexNumber, placeBetween, hbytes, htail]
  simp only [List.drop_succ_cons, List.drop_zero, passWhile_utf8Bytes _ _ passesHigh_isHexDigit,
    BytePlace.peek?, any_head?_utf8Bytes passesHigh_isNameChar]
  refine .ite ?_ (fun _ => .misfit _ 0) fun _ => ?_
  · simp [byteLength_eq_zero]
  · refine agrees_copy .hexNumber hsource
      (show _ = zero :: letter :: rest.takeWhile isHexDigit ++ rest.dropWhile isHexDigit by simp)
      (show _ = [zero, letter] ++ rest.takeWhile isHexDigit ++ [] by simp) ?_ ?_ ?_
    · rw [byteLength_append, opening]
    · exact length.symm
    · rw [← length]
      simp [placeBetween]

theorem passWhile_placeBetween {test : Char → Bool} {value : Bool} (htest : PassesHigh test value)
    (before input : List Char) :
    passWhile test (byteLength before) (utf8Bytes input) =
      placeBetween (before ++ input.takeWhile test) (input.dropWhile test) := by
  rw [passWhile_utf8Bytes _ _ htest, placeBetween, byteLength_append]

theorem readPlaceholder_agrees {mark : Char} {rest : List Char} {inLabel : Char → Bool}
    {value : Bool} (missing : SyntaxCause) (hmark : mark.toNat < 128)
    (hlabel : PassesHigh inLabel value) (hsource : source = before ++ mark :: rest) :
    Agrees source before (mark :: rest) (placeholderPiece mark inLabel missing rest)
      (readPlaceholder source inLabel missing (placeBetween before (mark :: rest))) := by
  obtain ⟨b, -, size, hbytes⟩ := utf8Bytes_ascii hmark rest
  rw [placeholderPiece, readPlaceholder, placeBetween, hbytes]
  simp only [List.drop_one, List.tail_cons, passWhile_utf8Bytes _ _ hlabel]
  refine .ite ?_ (fun _ => .misfit _ 0) fun _ => ?_
  · simp [byteLength_eq_zero]
  · refine agrees_copy .placeholder hsource
      (show _ = mark :: rest.takeWhile inLabel ++ rest.dropWhile inLabel by simp)
      (show _ = [] ++ mark :: rest.takeWhile inLabel ++ [] by simp) ?_ ?_ ?_
    · simp
    · simp [byteLength_append, byteLength, size, Nat.add_assoc]
    · simp [placeBetween, byteLength_append, byteLength, size, Nat.add_assoc]

theorem wordPiece_eq (input : List Char) :
    wordPiece input = ⟨input.takeWhile isNameChar,
      .token (wordToken (String.ofList (input.takeWhile isNameChar)))⟩ := by
  rw [wordPiece, wordToken]
  cases Keyword.ofWord? (String.ofList (input.takeWhile isNameChar)) <;> rfl

theorem readWord_agrees (hsource : source = before ++ input) :
    Agrees source before input (.ok (wordPiece input))
      (.ok (readWord source (placeBetween before input))) := by
  rw [wordPiece_eq, readWord]
  simp only [placeBetween, passWhile_placeBetween passesHigh_isNameChar]
  refine agrees_copy wordToken hsource
    (show _ = input.takeWhile isNameChar ++ input.dropWhile isNameChar by simp)
    (show _ = [] ++ input.takeWhile isNameChar ++ [] by simp) ?_ ?_ ?_
  · simp
  · simp
  · rfl

/-! ### Numbers -/

theorem passDigits_placeBetween (before input : List Char) :
    passDigits (placeBetween before input) =
      placeBetween (before ++ input.takeWhile Char.isDigit) (input.dropWhile Char.isDigit) :=
  passWhile_placeBetween passesHigh_isDigit before input

theorem drop_length_takeWhile {α : Type} (test : α → Bool) (xs : List α) :
    xs.drop (xs.takeWhile test).length = xs.dropWhile test := by
  nth_rewrite 2 [← List.takeWhile_append_dropWhile (p := test) (l := xs)]
  rw [List.drop_left]

/-- A character in ASCII that passes a test is passed as one byte. -/
theorem passIf_placeBetween {test : Char → Bool} {c : Char} (hascii : c.toNat < 128)
    (hc : test c) (before cs : List Char) :
    (placeBetween before (c :: cs)).passIf test = placeBetween (before ++ [c]) cs := by
  obtain ⟨b, hb, size, hbytes⟩ := utf8Bytes_ascii hascii cs
  rw [BytePlace.passIf, placeBetween, hbytes]
  simp [hb, hc, placeBetween, byteLength_append, byteLength, size]

theorem passIf_placeBetween_of_head {test : Char → Bool} {value : Bool}
    (htest : PassesHigh test value) {input : List Char} (h : input.head?.any test = false)
    (before : List Char) :
    (placeBetween before input).passIf test = placeBetween before input := by
  cases input with
  | nil => rfl
  | cons c cs =>
    obtain ⟨b, tail, hencoded⟩ := exists_encodedBy c
    have hc : test c = false := by simpa using h
    rw [BytePlace.passIf, placeBetween, hencoded.utf8Bytes_cons]
    simp [hencoded.test_eq htest, hc]

theorem passFraction_placeBetween (before input : List Char) :
    passFraction (placeBetween before input) =
      placeBetween (before ++ fractionText input) (input.drop (fractionText input).length) := by
  have point : (placeBetween before input).peek? = some '.' ↔ input.head? = some '.' :=
    head?_utf8Bytes_eq_some (by decide)
  by_cases h : input.head? = some '.'
  · obtain ⟨rest, rfl⟩ := List.head?_eq_some_iff.mp h
    rw [passFraction, if_pos (point.mpr h), passIf_placeBetween (by decide) (by decide),
      passDigits_placeBetween, fractionText, List.length_cons, List.drop_succ_cons,
      drop_length_takeWhile, List.append_assoc]
    rfl
  · have none : fractionText input = [] := by
      rw [fractionText.eq_def]
      split
      · exact absurd rfl h
      · rfl
    rw [passFraction, if_neg (mt point.mp h), none, List.append_nil]
    rfl

/-- A sign is passed where one stands. -/
theorem passSign_placeBetween (before input : List Char) :
    (placeBetween before input).passIf (fun c => c = '+' || c = '-') =
      placeBetween (before ++ signText input) (input.drop (signText input).length) := by
  rw [signText.eq_def]
  split
  · exact passIf_placeBetween (by decide) (by decide) _ _
  · exact passIf_placeBetween (by decide) (by decide) _ _
  · rename_i plus minus
    rw [passIf_placeBetween_of_head (passesHigh_pair (by decide) (by decide)), List.append_nil]
    · rfl
    · cases input with
      | nil => rfl
      | cons c cs =>
        simp only [List.head?_cons, Option.any_some, Bool.or_eq_false_iff, decide_eq_false_iff_not]
        exact ⟨fun h => plus cs (h ▸ rfl), fun h => minus cs (h ▸ rfl)⟩

theorem passExponent_placeBetween (before input : List Char) :
    passExponent (placeBetween before input) =
      match exponentText input with
      | none => .error (.fault ⟨.missingExponent, some (byteLength before)⟩)
      | some text => .ok (placeBetween (before ++ text) (input.drop text.length)) := by
  have isLetter : PassesHigh (fun c => c = 'e' || c = 'E') false :=
    passesHigh_pair (by decide) (by decide)
  have letter : (placeBetween before input).peek?.any (fun c => c = 'e' || c = 'E') =
      input.head?.any fun c => c = 'e' || c = 'E' := any_head?_utf8Bytes isLetter
  cases input with
  | nil => simp [passExponent, exponentText, placeBetween, BytePlace.peek?, utf8Bytes]
  | cons c cs =>
    rw [passExponent, exponentText]
    by_cases hc : c = 'e' || c = 'E'
    · have hascii : c.toNat < 128 := by
        simp only [Bool.or_eq_true, decide_eq_true_eq] at hc
        rcases hc with rfl | rfl <;> decide
      rw [if_pos (by rw [letter]; exact hc), if_pos hc, passIf_placeBetween hascii hc,
        passSign_placeBetween]
      generalize signText cs = sign
      have digit : (placeBetween (before ++ [c] ++ sign) (cs.drop sign.length)).peek?.any
          Char.isDigit = !((cs.drop sign.length).takeWhile Char.isDigit).isEmpty := by
        rw [BytePlace.peek?, placeBetween, any_head?_utf8Bytes passesHigh_isDigit]
        cases cs.drop sign.length with
        | nil => rfl
        | cons d rest => cases hd : d.isDigit <;> simp [hd]
      cases hnone : ((cs.drop sign.length).takeWhile Char.isDigit).isEmpty with
      | true =>
        simp only [digit, hnone, Bool.not_true, Bool.false_eq_true, if_false, if_true]
        rfl
      | false =>
        have dropped : (c :: cs).drop (c :: sign ++
            (cs.drop sign.length).takeWhile Char.isDigit).length =
            (cs.drop sign.length).dropWhile Char.isDigit := by
          simp [← List.drop_drop, drop_length_takeWhile]
        simp only [digit, hnone, Bool.not_false, if_true, Bool.false_eq_true, if_false, dropped,
          passDigits_placeBetween]
        simp
    · rw [if_neg (by rw [letter]; exact hc), if_neg hc]
      simp

theorem readNumber_agrees (hsource : source = before ++ input) :
    Agrees source before input (numberPiece input)
      (readNumber source (placeBetween before input)) := by
  have ascii : ∀ c ∈ input.takeWhile Char.isDigit ++
      fractionText (input.drop (input.takeWhile Char.isDigit).length), c.toNat < 128 := by
    intro c hc
    rcases List.mem_append.mp hc with hc | hc
    · exact toNat_lt_of_isDigit (List.mem_takeWhile_imp hc)
    · rcases isDigit_or_point_of_fractionText hc with hc | rfl
      · exact toNat_lt_of_isDigit hc
      · decide
  have opens := append_isPrefix (List.takeWhile_prefix (l := input) Char.isDigit)
    (fractionText_isPrefix _)
  rw [numberPiece, readNumber, passDigits_placeBetween, ← drop_length_takeWhile,
    passFraction_placeBetween, passExponent_placeBetween, List.append_assoc before, List.drop_drop,
    ← List.length_append]
  generalize input.takeWhile Char.isDigit ++
    fractionText (input.drop (input.takeWhile Char.isDigit).length) = mantissa at ascii opens ⊢
  cases hexponent : exponentText (input.drop mantissa.length) with
  | none =>
    rw [byteLength_append, byteLength_of_ascii ascii]
    exact .misfit _ _
  | some exponent =>
    obtain ⟨rest, rfl⟩ := append_isPrefix opens (exponentText_isPrefix hexponent)
    refine agrees_copy .number hsource rfl
      (show _ = [] ++ (mantissa ++ exponent) ++ [] by simp) ?_ ?_ ?_
    · simp [placeBetween]
    · simp [placeBetween]
    · simp [placeBetween]

/-! ### Symbols -/

theorem symbolOfPair?_of_high (c : Char) {d : Char} (h : 128 ≤ d.toNat) :
    symbolOfPair? c d = none := by
  unfold symbolOfPair?
  split <;> first | rfl | exact absurd h (by decide)

/-- The byte ahead makes a pair where the character ahead does. -/
theorem bind_symbolOfPair?_utf8Bytes (c : Char) (rest : List Char) :
    ((utf8Bytes rest).head?.bind fun d => symbolOfPair? c (byteChar d)) =
      rest.head?.bind fun d => symbolOfPair? c d := by
  cases rest with
  | nil => rfl
  | cons d rest =>
    obtain ⟨e, tail, h⟩ := exists_encodedBy d
    by_cases hd : d.toNat < 128
    · simp [h.utf8Bytes_cons, h.ascii hd]
    · simp [h.utf8Bytes_cons, symbolOfPair?_of_high c (h.high (by omega)),
        symbolOfPair?_of_high c (show 128 ≤ d.toNat by omega)]

theorem readSymbol_agrees {c : Char} {rest : List Char} (hascii : c.toNat < 128)
    (hsource : source = before ++ c :: rest) :
    Agrees source before (c :: rest) (symbolPiece c rest)
      (readSymbol source c (placeBetween before (c :: rest))) := by
  obtain ⟨b, -, size, hbytes⟩ := utf8Bytes_ascii hascii rest
  rw [symbolPiece, readSymbol]
  simp only [placeBetween, hbytes, List.drop_one, List.tail_cons, bind_symbolOfPair?_utf8Bytes]
  cases hpair : rest.head?.bind fun d => symbolOfPair? c d with
  | some symbol =>
    obtain ⟨d, hd, hsymbol⟩ := Option.bind_eq_some_iff.mp hpair
    obtain ⟨more, rfl⟩ := List.head?_eq_some_iff.mp hd
    have hd : d.toNat < 128 := by
      by_contra high
      rw [symbolOfPair?_of_high c (by omega)] at hsymbol
      cases hsymbol
    obtain ⟨e, -, second, htail⟩ := utf8Bytes_ascii hd more
    have next : placeBetween (before ++ [c, d]) more =
        ⟨byteLength before + 2, (b :: utf8Bytes (d :: more)).drop 2⟩ := by
      simp [placeBetween, htail, byteLength_append, byteLength, size, second]
    simp only [List.head?_cons, Option.bind_some, hsymbol, Option.map_some, ← next]
    exact .taken [c, d] more (some (.symbol symbol)) [] rfl (by simp [Source.CopiesParts])
  | none =>
    have none : (rest.head?.bind fun d => (symbolOfPair? c d).map ([c, d], ·)) = none := by
      simp only [Option.bind_eq_none_iff, Option.map_eq_none_iff] at hpair ⊢
      exact hpair
    rw [none]
    cases hsymbol : symbolOfChar? c with
    | some symbol =>
      have next : placeBetween (before ++ [c]) rest = ⟨byteLength before + 1, utf8Bytes rest⟩ := by
        simp [placeBetween, byteLength_append, byteLength, size]
      simp only [← next]
      exact .taken [c] rest (some (.symbol symbol)) [] rfl (by simp [Source.CopiesParts])
    | none =>
      have dropped := dropBytes_add before (c :: rest) 0
      rw [Nat.add_zero, dropBytes, ← hsource] at dropped
      simp only [dropped, List.head?_cons, Option.getD_some]
      exact .misfit _ 0

theorem readToken_agrees_of_ascii (lexer : Lexer) {c : Char} {rest : List Char}
    (hascii : c.toNat < 128) (hsource : source = before ++ c :: rest) :
    Agrees source before (c :: rest) (lexer.tokenPiece c rest)
      (readToken lexer source (placeBetween before (c :: rest))) := by
  obtain ⟨b, hb, size, hbytes⟩ := utf8Bytes_ascii hascii rest
  have behind : (⟨byteLength before + 1, utf8Bytes rest⟩ : BytePlace) =
      placeBetween (before ++ [c]) rest := by
    simp [placeBetween, byteLength_append, byteLength, size]
  have next {a : Char} (ha : a.toNat < 128) :
      (utf8Bytes rest).head?.map byteChar = some a ↔ rest.head? = some a :=
    head?_utf8Bytes_eq_some ha
  have quote := next (show ('\'' : Char).toNat < 128 by decide)
  have point : ((utf8Bytes rest).head?.map byteChar).any Char.isDigit =
      rest.head?.any Char.isDigit := any_head?_utf8Bytes passesHigh_isDigit
  have here : placeBetween before (c :: rest) = ⟨byteLength before, b :: utf8Bytes rest⟩ := by
    rw [placeBetween, hbytes]
  rw [here, Lexer.tokenPiece, readToken]
  simp only [hb, behind, quote, point, ← here]
  have none : byteLength [] = ([] : List Char).length := rfl
  have single : byteLength [c] = [c].length := by simp [byteLength, size]
  have opened (h : rest.head? = some '\'') : ∃ more, rest = '\'' :: more :=
    List.head?_eq_some_iff.mp h
  refine .ite Iff.rfl (fun hc => ?_) fun _ => .ite Iff.rfl (fun hc => ?_) fun _ =>
    .ite Iff.rfl (fun hc => ?_) fun _ => .ite Iff.rfl (fun hc => ?_) fun _ =>
    .ite Iff.rfl (fun hc => ?_) fun _ => .ite Iff.rfl (fun hc => ?_) fun _ =>
    .ite Iff.rfl (fun hc => ?_) fun _ => .ite ?_ (fun hc => ?_) fun _ =>
    .ite Iff.rfl (fun hc => ?_) fun _ => .ite Iff.rfl (fun hc => ?_) fun _ =>
    .ite Iff.rfl (fun hc => ?_) fun _ => .ite Iff.rfl (fun hc => ?_) fun _ =>
    .ite Iff.rfl (fun hc => ?_) fun _ => ?_
  · subst hc
    exact readString_agrees .single _ none (List.append_nil _) hsource
  · subst hc
    exact .ite Iff.rfl
      (fun _ => readString_agrees .double _ none (List.append_nil _) hsource)
      fun _ => readQuotedName_agrees (by decide) (by decide) hsource
  · exact readQuotedName_agrees hascii (by decide) hsource
  · exact readQuotedName_agrees hascii (by decide) hsource
  · simp only [Bool.and_eq_true, decide_eq_true_eq] at hc
    obtain ⟨more, rfl⟩ := opened hc.1.2
    exact readString_agrees .national _ single rfl hsource
  · simp only [Bool.and_eq_true, decide_eq_true_eq] at hc
    obtain ⟨more, rfl⟩ := opened hc.1.2
    exact readString_agrees .escaped _ single rfl hsource
  · simp only [Bool.and_eq_true, decide_eq_true_eq] at hc
    obtain ⟨more, rfl⟩ := opened hc.1.2
    exact readHexString_agrees hascii hsource
  · simp only [Bool.and_eq_true, Bool.or_eq_true, decide_eq_true_eq,
      next (show ('x' : Char).toNat < 128 by decide),
      next (show ('X' : Char).toNat < 128 by decide)]
  · simp only [Bool.and_eq_true, Bool.or_eq_true, decide_eq_true_eq] at hc
    obtain ⟨letter, hletter, more, rfl⟩ : ∃ letter : Char, letter.toNat < 128 ∧
        ∃ more, rest = letter :: more := by
      rcases hc.1.2 with h | h
      · exact ⟨'x', by decide, List.head?_eq_some_iff.mp h⟩
      · exact ⟨'X', by decide, List.head?_eq_some_iff.mp h⟩
    exact readHexNumber_agrees hascii hletter hsource
  · exact readNumber_agrees hsource
  · have parts : source.CopiesParts [] := by simp [Source.CopiesParts]
    exact .taken [c] rest .none [] rfl parts
  · exact readPlaceholder_agrees _ hascii passesHigh_isDigit hsource
  · exact readPlaceholder_agrees _ hascii passesHigh_isNameChar hsource
  · exact readWord_agrees hsource
  · exact readSymbol_agrees hascii hsource

/-- Nothing but a word starts beyond ASCII. -/
theorem tokenPiece_of_high (lexer : Lexer) {c : Char} (high : 128 ≤ c.toNat) (rest : List Char) :
    lexer.tokenPiece c rest = .ok (wordPiece (c :: rest)) := by
  have other (a : Char) (ha : a.toNat < 128) : (c = a) = False := by
    simp only [eq_iff_iff, iff_false]
    rintro rfl
    omega
  simp (disch := decide) [Lexer.tokenPiece, other, passesHigh_isDigit c high,
    passesHigh_isNameStart c high]

theorem readToken_of_high (lexer : Lexer) (source : Source) (offset : Nat) {b : UInt8}
    (high : IsHigh b) (bytes : List UInt8) :
    readToken lexer source ⟨offset, b :: bytes⟩ =
      .ok (readWord source ⟨offset, b :: bytes⟩) := by
  have other (a : Char) (ha : a.toNat < 128) : (byteChar b = a) = False :=
    eq_false (high.ne ha)
  simp (disch := decide) [readToken, other, passesHigh_isDigit _ high,
    passesHigh_isNameStart _ high]

/-- **At the start of a character, a scan reads the token of the lexer.** -/
theorem readToken_agrees (lexer : Lexer) {c : Char} {rest : List Char}
    (hsource : source = before ++ c :: rest) :
    Agrees source before (c :: rest) (lexer.tokenPiece c rest)
      (readToken lexer source (placeBetween before (c :: rest))) := by
  by_cases hascii : c.toNat < 128
  · exact readToken_agrees_of_ascii lexer hascii hsource
  · have high : 128 ≤ c.toNat := by omega
    obtain ⟨b, tail, h⟩ := exists_encodedBy c
    have read : readToken lexer source (placeBetween before (c :: rest)) =
        .ok (readWord source (placeBetween before (c :: rest))) := by
      rw [placeBetween, h.utf8Bytes_cons, readToken_of_high lexer source _ (h.high high)]
    rw [tokenPiece_of_high lexer high, read]
    exact readWord_agrees hsource

end

/-! ### Gaps -/

theorem passComment_placeBetween (lexer : Lexer) (before : List Char) {c : Char} {rest : List Char}
    (hc : isBlank c = false) :
    passComment lexer (placeBetween before (c :: rest)) =
      match lexer.gap? c rest with
      | none => .ok none
      | some (.ok text) =>
          .ok (some (placeBetween (before ++ text) ((c :: rest).drop text.length)))
      | some (.error (cause, n)) => .error (.fault ⟨cause, some (byteLength before + n)⟩) := by
  obtain ⟨b, tail, h⟩ := exists_encodedBy c
  have next {a d : Char} (ha : a.toNat < 128) (hd : d.toNat < 128) :
      byteChar b = a ∧ (tail ++ utf8Bytes rest).head?.map byteChar = some d ↔
        c = a ∧ rest.head? = some d := by
    rw [h.eq_iff ha, and_congr_right_iff]
    rintro rfl
    rw [h.tail_eq_nil ha]
    exact head?_utf8Bytes_eq_some hd
  have dash : ('-' : Char).toNat < 128 := by decide
  have hash : ('#' : Char).toNat < 128 := by decide
  have slash : ('/' : Char).toNat < 128 := by decide
  have star : ('*' : Char).toNat < 128 := by decide
  have line := passLine_utf8Bytes (byteLength before) (c :: rest)
  rw [h.utf8Bytes_cons] at line
  rw [placeBetween, h.utf8Bytes_cons, passComment]
  simp only [Lexer.gap?, hc, Bool.false_eq_true, if_false, Bool.or_eq_true, Bool.and_eq_true,
    decide_eq_true_eq, next dash dash, next slash star, h.eq_iff hash, line]
  by_cases mark : (c = '-' ∧ rest.head? = some '-') ∨ (c = '#' ∧ lexer.dialect.hashComments = true)
  · simp only [mark, if_true, placeBetween, byteLength_append]
  · simp only [mark, if_false]
    by_cases block : c = '/' ∧ rest.head? = some '*'
    · obtain ⟨rfl, hstar⟩ := block
      obtain ⟨more, rfl⟩ := List.head?_eq_some_iff.mp hstar
      obtain rfl := h.tail_eq_nil slash
      obtain ⟨d, -, size, hbytes⟩ := utf8Bytes_ascii star more
      have first : ('/' : Char).utf8Size = 1 := rfl
      simp only [List.head?_cons, and_self, if_true, List.nil_append, hbytes, List.drop_one,
        List.tail_cons, passBlock_utf8Bytes]
      cases blockText more with
      | none => rfl
      | some text =>
        simp [placeBetween, byteLength_append, byteLength, first, size]
        omega
    · simp only [block, if_false]

/-- What the passing of a gap comes to at the start of a text: it takes what the lexer takes for
gaps, up to a token or the end. -/
inductive PassesGap (lexer : Lexer) (before input : List Char) : Except Halt BytePlace → Prop where
  | passed (gap rest : List Char) : input = gap ++ rest →
      (∀ c tail, rest = c :: tail → lexer.gap? c tail = none) →
      (∀ parameters, lexer.lexemesFrom parameters (byteLength before) 0 input =
        lexer.lexemesFrom parameters (byteLength (before ++ gap)) 0 rest) →
      PassesGap lexer before input (.ok (placeBetween (before ++ gap) rest))
  | fault (fault : Fault) :
      (∀ parameters, lexer.lexemesFrom parameters (byteLength before) 0 input = .error fault) →
      PassesGap lexer before input (.error (.fault fault))

theorem PassesGap.behind {lexer : Lexer} {before front rest : List Char}
    {passed : Except Halt BytePlace} (h : PassesGap lexer (before ++ front) rest passed)
    (hfront : ∀ parameters, lexer.lexemesFrom parameters (byteLength before) 0 (front ++ rest) =
      lexer.lexemesFrom parameters (byteLength (before ++ front)) 0 rest) :
    PassesGap lexer before (front ++ rest) passed := by
  cases h with
  | passed gap rest hrest hend hgap =>
    rw [List.append_assoc] at hgap ⊢
    exact .passed (front ++ gap) rest (by rw [hrest, List.append_assoc]) hend
      fun parameters => (hfront parameters).trans (hgap parameters)
  | fault fault hfault => exact .fault fault fun parameters => (hfront parameters).trans (hfault _)

section

variable {lexer : Lexer} {c : Char} {text tail : List Char} (parameters offset : Nat)

theorem lexemesFrom_gapPiece (h : lexer.piece c (text ++ tail) = .ok ⟨c :: text, .gap⟩) :
    lexer.lexemesFrom parameters offset 0 (c :: (text ++ tail)) =
      lexer.lexemesFrom parameters (offset + byteLength (c :: text)) 0 tail := by
  rw [Lexer.lexemesFrom, h]
  exact Lexer.lexemesFrom_next ..

theorem lexemesFrom_tokenPiece {token? : Option Token} {next : BytePlace} (copied : List Span)
    (h : lexer.piece c (text ++ tail) = .ok ⟨c :: text, token?.elim .parameter .token⟩)
    (hnext : next.offset = offset + byteLength (c :: text)) :
    lexer.lexemesFrom parameters offset 0 (c :: (text ++ tail)) =
      (lexer.lexemesFrom (if token?.isNone then parameters + 1 else parameters) next.offset 0
        tail).map (Taken.lexeme parameters offset ⟨token?, next, copied⟩ :: ·) := by
  rw [Lexer.lexemesFrom, h]
  simp only [Lexer.lexemesFrom_next, Taken.lexeme, hnext]
  cases token? <;> rfl

end

theorem passGap_placeBetween (lexer : Lexer) (before input : List Char) :
    PassesGap lexer before input (passGap lexer (placeBetween before input)) := by
  induction hlength : input.length using Nat.strong_induction_on generalizing before input with
  | h length ih =>
    have blanks (parameters : Nat) := lexer.lexemesFrom_gap
      (.of_blanks fun c (hc : c ∈ input.takeWhile isBlank) => List.mem_takeWhile_imp hc)
      (input.dropWhile isBlank) parameters (byteLength before)
    have head := List.head?_dropWhile_not isBlank input
    have split := List.takeWhile_append_dropWhile (p := isBlank) (l := input)
    rw [passGap]
    simp only [placeBetween_offset, placeBetween_bytes, passWhile_placeBetween passesHigh_isBlank]
    generalize input.takeWhile isBlank = front at *
    generalize input.dropWhile isBlank = rest at *
    subst split
    simp only [← byteLength_append] at blanks
    cases rest with
    | nil => exact .passed front [] rfl (fun c tail h => by cases h) blanks
    | cons c rest =>
      rw [passComment_placeBetween lexer _ (by simpa using head)]
      cases hgap : lexer.gap? c rest with
      | none =>
        refine .passed front (c :: rest) rfl (fun d tail h => ?_) blanks
        cases h
        exact hgap
      | some found =>
        cases found with
        | error misfit =>
          have hpiece : lexer.piece c rest = .error misfit := by
            simp [Lexer.piece, hgap, Except.map]
          refine .fault _ fun parameters => ?_
          rw [blanks, Lexer.lexemesFrom, hpiece]
        | ok text =>
          have hpiece : lexer.piece c rest = .ok ⟨text, .gap⟩ := by
            simp [Lexer.piece, hgap, Except.map]
          obtain ⟨text, _, tail, heq, rfl⟩ := Lexer.exists_split_of_piece hpiece
          cases heq
          have behind (parameters : Nat) : lexer.lexemesFrom parameters (byteLength before) 0
              (front ++ c :: text ++ tail) = lexer.lexemesFrom parameters
                (byteLength (before ++ (front ++ c :: text))) 0 tail := by
            rw [List.append_assoc front, List.cons_append, blanks, lexemesFrom_gapPiece _ _ hpiece,
              ← byteLength_append, List.append_assoc]
          have shorter : tail.length < (front ++ c :: (text ++ tail)).length := by
            simp only [List.length_append, List.length_cons]
            omega
          simp only [List.length_cons, List.drop_succ_cons, List.drop_left, placeBetween_bytes]
          rw [if_pos (length_utf8Bytes_lt front c text tail)]
          have next := ih tail.length (by omega) (before ++ (front ++ c :: text)) tail rfl
          simpa using next.behind behind

/-! ### Texts -/

/-- A scan comes to the same tokens or to the same fault as the lexer, and it copies whole parts of
the text. -/
inductive ScansAs (source : Source) : Except Fault (List Lexeme) → Except Halt Scan → Prop where
  | tokens (lexemes : List Lexeme) (copied : List Span) : source.CopiesParts copied →
      ScansAs source (.ok lexemes) (.ok ⟨lexemes, copied⟩)
  | fault (fault : Fault) : ScansAs source (.error fault) (.error (.fault fault))

theorem ScansAs.cons {source : Source} {lexemes : Except Fault (List Lexeme)}
    {scan : Except Halt Scan} (h : ScansAs source lexemes scan) (lexeme : Lexeme)
    {copied : List Span} (hcopied : source.CopiesParts copied) :
    ScansAs source (lexemes.map (lexeme :: ·))
      (scan.map fun more => ⟨lexeme :: more.lexemes, copied ++ more.copied⟩) := by
  cases h with
  | tokens lexemes ranges hranges =>
    exact .tokens _ _ (List.forall_mem_append.mpr ⟨hcopied, hranges⟩)
  | fault fault => exact .fault fault

theorem lexeme_token_ne_eof {lexer : Lexer} {c : Char} {rest text : List Char}
    {token? : Option Token}
    (hpiece : lexer.piece c rest = .ok ⟨text, token?.elim .parameter .token⟩)
    {parameters offset : Nat} {next : BytePlace} {copied : List Span} :
    (Taken.lexeme parameters offset ⟨token?, next, copied⟩).token ≠ .eof := by
  have proper := (lexer.piece_opens hpiece).proper
  cases token? with
  | none => simp [Taken.lexeme]
  | some token => simpa [Taken.lexeme] using proper

theorem scanFrom_of_taken {lexer : Lexer} {source : Source} {parameters : Nat}
    {here start : BytePlace} {taken : Taken} (hgap : passGap lexer here = .ok start)
    (hread : readToken lexer source start = .ok taken)
    (htoken : (taken.lexeme parameters start.offset).token ≠ .eof)
    (hnext : taken.next.bytes.length < here.bytes.length) :
    scanFrom lexer source parameters here =
      (scanFrom lexer source (if taken.token?.isNone then parameters + 1 else parameters)
        taken.next).map fun more =>
          ⟨taken.lexeme parameters start.offset :: more.lexemes, taken.copied ++ more.copied⟩ := by
  rw [scanFrom, hgap]
  simp only [hread, if_neg htoken, if_pos hnext]

/-- **From a place between two characters on, a scan does what the lexer does.** -/
theorem scanFrom_placeBetween (lexer : Lexer) {source : Source} {before input : List Char}
    (hsource : source = before ++ input) (parameters : Nat) :
    ScansAs source (lexer.lexemesFrom parameters (byteLength before) 0 input)
      (scanFrom lexer source parameters (placeBetween before input)) := by
  induction hlength : input.length using Nat.strong_induction_on
    generalizing before input parameters with
  | h length ih =>
    have passes := passGap_placeBetween lexer before input
    generalize hpasses : passGap lexer (placeBetween before input) = passed at passes
    cases passes with
    | fault fault hfault =>
      rw [hfault, scanFrom, hpasses]
      exact .fault fault
    | passed gap rest hinput hend hgap =>
      rw [hgap]
      subst hinput
      cases rest with
      | nil =>
        have parts : source.CopiesParts [] := by simp [Source.CopiesParts]
        rw [scanFrom, hpasses]
        exact .tokens _ _ parts
      | cons c rest =>
        have hsplit : source = before ++ gap ++ c :: rest := by
          rw [hsource, List.append_assoc]
        have reads := readToken_agrees lexer hsplit
        have piece : lexer.piece c rest = lexer.tokenPiece c rest := by
          rw [Lexer.piece, hend c rest rfl]
        rw [← piece] at reads
        generalize hpiece : lexer.piece c rest = found at reads
        generalize hread : readToken lexer source (placeBetween (before ++ gap) (c :: rest)) = read
          at reads
        cases reads with
        | misfit cause n =>
          rw [Lexer.lexemesFrom, hpiece, scanFrom, hpasses]
          simp only [hread]
          exact .fault _
        | taken text tail token? copied htext hcopied =>
          obtain ⟨text, _, more, ⟨⟩, rfl⟩ := Lexer.exists_split_of_piece hpiece
          obtain rfl : more = tail := List.append_cancel_left (List.cons.inj htext).2
          have next := ih more.length (by simp [← hlength]; omega)
            (hsplit.trans (show _ = before ++ gap ++ c :: text ++ more by simp))
            (if token?.isNone then parameters + 1 else parameters) rfl
          have stop : (placeBetween (before ++ gap ++ c :: text) more).offset =
              byteLength (before ++ gap) + byteLength (c :: text) := byteLength_append ..
          rw [scanFrom_of_taken hpasses hread (lexeme_token_ne_eof hpiece)
              (length_utf8Bytes_lt gap c text more),
            lexemesFrom_tokenPiece parameters _ copied hpiece stop]
          exact next.cons _ hcopied

theorem scan_scansAs (lexer : Lexer) (source : Source) :
    ScansAs source (lexer.lexemes source) (lexer.scan source) :=
  scanFrom_placeBetween lexer (List.nil_append source).symm 0

/-- **The tokens that a scan takes off the bytes of a text tile it**, and they are the tokens of the
text. Whatever is copied for them is a whole part of the text. A scan that comes to no tokens comes
to the fault of the text: it never cuts a character where this breaks it down, nor does it go on for
ever. -/
theorem tokenize_tiles (lexer : Lexer) (source : Source) :
    (∀ lexemes copied, lexer.scan source = .ok ⟨lexemes, copied⟩ →
      tokenize lexer source = .ok lexemes ∧ source.TiledBy lexer.dialect lexemes ∧
        ∀ range ∈ copied, ∃ text, source.Covers range text) ∧
    ∀ halt, lexer.scan source = .error halt →
      ∃ fault, halt = .fault fault ∧ tokenize lexer source = .error (fault.failure source) := by
  have scans := scan_scansAs lexer source
  rw [tokenize]
  generalize hlexemes : lexer.lexemes source = lexemes at scans ⊢
  generalize lexer.scan source = scan at scans ⊢
  cases scans with
  | tokens lexemes copied parts =>
    refine ⟨?_, fun halt h => by cases h⟩
    rintro _ _ ⟨⟩
    exact ⟨rfl, Lexer.tiledBy_of_lexemes hlexemes, parts⟩
  | fault fault =>
    refine ⟨fun lexemes copied h => (by cases h), ?_⟩
    rintro _ ⟨⟩
    exact ⟨fault, rfl, rfl⟩

/-- The character after the backslash takes two bytes, of which the backslash takes one with it; the
name is copied in two parts; and the last comment has no end of line. -/
theorem tokenize_tiles_of_escape :
    let lexer := Lexer.ofDialect .mysql
    let source :=
      ['ü', '-', '-', 'é', '\n', '\'', '\\', 'ß', '\'', '`', 'ä', '`', '`', 'ö', '`', '#', ' ']
    let lexemes : List Lexeme := [⟨.name "ü", ⟨0, 2⟩⟩, ⟨.string "\\ß" .single, ⟨7, 12⟩⟩,
      ⟨.quotedName "ä`ö", ⟨12, 20⟩⟩, ⟨.eof, ⟨22, 22⟩⟩]
    lexer.scan source = .ok ⟨lexemes, [⟨0, 2⟩, ⟨8, 11⟩, ⟨13, 15⟩, ⟨17, 19⟩]⟩ ∧
      tokenize lexer source = .ok lexemes ∧
      gapsBefore 0 lexemes = [⟨0, 0⟩, ⟨2, 7⟩, ⟨12, 12⟩, ⟨20, 22⟩] ∧
      List.Forall₂ (GapBefore .mysql source) lexemes (gapsBefore 0 lexemes) := by
  intro lexer source lexemes
  have scanned : lexer.scan source =
      .ok ⟨lexemes, [⟨0, 2⟩, ⟨8, 11⟩, ⟨13, 15⟩, ⟨17, 19⟩]⟩ := by decide +kernel
  obtain ⟨tokenized, ⟨_, _, _, _, gaps⟩, _⟩ := (tokenize_tiles lexer source).1 _ _ scanned
  exact ⟨scanned, tokenized, rfl, gaps⟩

end SqlFront
