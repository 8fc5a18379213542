import Mathlib.Data.List.TakeWhile
import SqlFront.Proofs.Pieces

/-!
A piece is decided by its own characters and by the one behind it. It is the same piece in front of
every text that starts with the same character or is empty; and a token is the same one in front of
a blank, too.

The scanners look one character beyond what they take, to see whether they have to go on. No token
goes on with a blank. So a text that is cut behind a piece still ends with that piece, and a text
that is cut behind a token may be filled up with blanks there.
-/

namespace SqlFront

/-- Where the second text starts with a character that passes the test, so does the first one, with
the same character. -/
def StartsWithin (p : Char → Bool) (rest other : List Char) : Prop :=
  ∀ d, other.head? = some d → p d → rest.head? = some d

namespace StartsWithin

variable {p q : Char → Bool} {rest other : List Char}

theorem mono (h : StartsWithin p rest other) (himp : ∀ d, q d → p d) : StartsWithin q rest other :=
  fun d hd hq => h d hd (himp d hq)

/-- Behind the same characters, the texts start in the same way. -/
theorem append (h : StartsWithin p rest other) (text : List Char) :
    StartsWithin p (text ++ rest) (text ++ other) := by
  cases text with
  | nil => exact h
  | cons c text => exact fun d hd _ => hd

theorem of_append {more : List Char} : StartsWithin p (other ++ more) other := by
  intro d hd _
  rw [List.head?_append, hd, Option.some_or]

/-- Behind a token, the test is one that blanks do not pass. -/
theorem of_not_blank (h : StartsWithin (!isBlank ·) rest other)
    (hblank : ∀ d, isBlank d → p d = false) : StartsWithin p rest other := by
  refine h.mono fun d hd => ?_
  cases hspace : isBlank d with
  | false => rfl
  | true =>
    rw [hblank d hspace] at hd
    cases hd

theorem any (h : StartsWithin p rest other) (hany : other.head?.any p) : rest.head?.any p := by
  cases hhead : other.head? with
  | none =>
    rw [hhead] at hany
    cases hany
  | some d =>
    rw [hhead] at hany
    rw [h d hhead hany]
    exact hany

/-- A character that passes the test is not the next one here unless it is there. -/
theorem next {d : Char} (h : StartsWithin p rest other) (hnext : other.head? = some d) (hd : p d) :
    rest.head? = some d :=
  h d hnext hd

end StartsWithin

/-- The blanks, one by one. -/
theorem isBlank_iff {c : Char} :
    isBlank c ↔ c = ' ' ∨ c = '\t' ∨ c = '\n' ∨ c = '\x0c' ∨ c = '\r' := by
  simp [isBlank, or_assoc]

/-- What a test says of every blank, it says of each of them. -/
theorem forall_blank {motive : Char → Prop}
    (h : motive ' ' ∧ motive '\t' ∧ motive '\n' ∧ motive '\x0c' ∧ motive '\r')
    (c : Char) (hc : isBlank c) : motive c := by
  obtain ⟨hspace, htab, hnewline, hfeed, hreturn⟩ := h
  rcases isBlank_iff.mp hc with rfl | rfl | rfl | rfl | rfl <;> assumption

variable {text rest other : List Char}

/-! ### Texts of pieces -/

theorem takeWhile_append_eq_left {p : Char → Bool} :
    (text ++ rest).takeWhile p = text ↔
      (∀ c ∈ text, p c) ∧ ∀ d, rest.head? = some d → p d = false := by
  induction text with
  | nil => cases rest <;> simp [List.takeWhile_cons]
  | cons c text ih => by_cases hc : p c <;> simp [hc, ih]

/-- What a test takes of a text, it takes in front of a text that does not start with more of it. -/
theorem takeWhile_swap {p : Char → Bool} (hstarts : StartsWithin p rest other)
    (h : (text ++ rest).takeWhile p = text) : (text ++ other).takeWhile p = text := by
  obtain ⟨hall, hrest⟩ := takeWhile_append_eq_left.mp h
  refine takeWhile_append_eq_left.mpr ⟨hall, fun d hd => ?_⟩
  cases hp : p d with
  | false => rfl
  | true => exact hp.symm.trans (hrest d (hstarts d hd hp))

theorem lineText_swap (hstarts : StartsWithin (fun _ => true) rest other)
    (h : lineText (text ++ rest) = text) : lineText (text ++ other) = text := by
  induction text with
  | nil =>
    cases rest with
    | cons c rest =>
      rw [List.nil_append, lineText] at h
      split at h <;> cases h
    | nil =>
      cases other with
      | nil => rfl
      | cons d other => cases hstarts d rfl rfl
  | cons c text ih =>
    rw [List.cons_append, lineText] at h ⊢
    split at h
    · rename_i hc
      rw [if_pos hc, h]
    · rename_i hc
      rw [if_neg hc, ih (List.cons.inj h).2]

theorem two_le_length_of_blockText {input : List Char} (h : blockText input = some text) :
    2 ≤ text.length := by
  fun_induction blockText input generalizing text with
  | case1 rest =>
    obtain rfl := Option.some.inj h
    exact Nat.le_refl _
  | case2 c cs hc ih =>
    obtain ⟨body, hbody, rfl⟩ := Option.map_eq_some_iff.mp h
    exact Nat.le_succ_of_le (ih hbody)
  | case3 => cases h

/-- A block comment is decided by its own text. -/
theorem blockText_swap (h : blockText (text ++ rest) = some text) :
    blockText (text ++ other) = some text := by
  induction text with
  | nil => simpa using two_le_length_of_blockText h
  | cons c text ih =>
    obtain ⟨d, tail, rfl⟩ : ∃ d tail, text = d :: tail := by
      cases text with
      | nil => simpa using two_le_length_of_blockText h
      | cons d tail => exact ⟨d, tail, rfl⟩
    by_cases hend : c = '*' ∧ d = '/'
    · obtain ⟨rfl, rfl⟩ := hend
      simpa [blockText] using h
    · have hopen : ∀ more rest, c = '*' → d :: tail ++ rest = '/' :: more → False :=
        fun more rest hc heq => hend ⟨hc, (List.cons.inj heq).1⟩
      rw [List.cons_append, blockText.eq_2 _ _ fun more => hopen more _] at h ⊢
      obtain ⟨body, hbody, heq⟩ := Option.map_eq_some_iff.mp h
      obtain rfl := (List.cons.inj heq).2
      rw [ih hbody]
      rfl

/-- The body of a string ends in front of its closing quote, unless another quote follows. -/
theorem stringBody_swap {quote : Char} {escapes : Bool} {body : List Char}
    (hstarts : StartsWithin (· == quote) rest other)
    (h : stringBody quote escapes (body ++ quote :: rest) = some body) :
    stringBody quote escapes (body ++ quote :: other) = some body := by
  generalize hinput : body ++ quote :: rest = input at h
  fun_induction stringBody quote escapes input generalizing body with
  | case1 => simp at hinput
  | case2 => cases h
  | case3 c hc d tail ih =>
    obtain ⟨inner, hinner, rfl⟩ := Option.map_eq_some_iff.mp h
    simp only [List.cons_append, List.cons.injEq, true_and] at hinput
    simp only [List.cons_append, stringBody, hc, if_true, ih hinput hinner, Option.map_some]
  | case4 hc =>
    obtain rfl := Option.some.inj h
    obtain rfl : rest = [] := by simpa using hinput
    cases other with
    | nil => simp [stringBody, hc]
    | cons d other =>
      have hd : d ≠ quote := fun heq => by cases hstarts d rfl (by simpa using heq)
      simp [stringBody, hc, hd]
  | case5 tail hc ih =>
    obtain ⟨inner, hinner, rfl⟩ := Option.map_eq_some_iff.mp h
    simp only [List.cons_append, List.cons.injEq, true_and] at hinput
    simp only [List.cons_append, stringBody, hc, if_true, ih hinput hinner, Option.map_some]
    simp
  | case6 d tail hd hc =>
    obtain rfl := Option.some.inj h
    obtain rfl : rest = d :: tail := by simpa using hinput
    cases other with
    | nil => simp [stringBody, hc]
    | cons b other =>
      have hb : b ≠ quote := by
        intro heq
        have hsame := hstarts b rfl (by simpa using heq)
        exact hd ((Option.some.inj hsame).trans heq)
      simp [stringBody, hc, hb]
  | case7 c tail hc hd ih =>
    obtain ⟨inner, hinner, rfl⟩ := Option.map_eq_some_iff.mp h
    simp only [List.cons_append, List.cons.injEq, true_and] at hinput
    have hother : stringBody quote escapes (c :: (inner ++ quote :: other)) =
        (stringBody quote escapes (inner ++ quote :: other)).map (c :: ·) := by
      rw [stringBody.eq_def]
      dsimp only
      rw [if_neg hc, if_neg hd]
    rw [List.cons_append, hother, ih hinput hinner]
    rfl

theorem quotedName_swap {close : Char} {name : List Char}
    (hstarts : StartsWithin (· == close) rest other)
    (h : quotedName close (text ++ rest) = some (name, text)) :
    quotedName close (text ++ other) = some (name, text) := by
  generalize hinput : text ++ rest = input at h
  fun_induction quotedName close input generalizing name text with
  | case1 => cases h
  | case2 =>
    cases h
    obtain rfl : rest = [] := by simpa using hinput
    cases other with
    | nil => simp [quotedName]
    | cons d other =>
      have hd : d ≠ close := fun heq => by cases hstarts d rfl (by simpa using heq)
      simp [quotedName, hd]
  | case3 tail ih =>
    obtain ⟨⟨inner, innerText⟩, hinner, heq⟩ := Option.map_eq_some_iff.mp h
    cases heq
    simp only [List.cons_append, List.cons.injEq, true_and] at hinput
    simp only [List.cons_append, quotedName, if_true, ih hinput hinner, Option.map_some]
  | case4 d tail hd =>
    cases h
    obtain rfl : rest = d :: tail := by simpa using hinput
    cases other with
    | nil => simp [quotedName]
    | cons b other =>
      have hb : b ≠ close := by
        intro heq
        have hsame := hstarts b rfl (by simpa using heq)
        exact hd ((Option.some.inj hsame).trans heq)
      simp [quotedName, hb]
  | case5 c tail hc ih =>
    obtain ⟨⟨inner, innerText⟩, hinner, heq⟩ := Option.map_eq_some_iff.mp h
    cases heq
    simp only [List.cons_append, List.cons.injEq, true_and] at hinput
    rw [List.cons_append, quotedName.eq_def]
    simp only [hc, if_false, ih hinput hinner, Option.map_some]

theorem fractionText_swap (hstarts : StartsWithin (!isBlank ·) rest other)
    (h : fractionText (text ++ rest) = text) : fractionText (text ++ other) = text := by
  cases text with
  | nil =>
    -- the text goes on with a point here only if it does there
    have hpoint : ∀ tail, other ≠ '.' :: tail := by
      rintro tail rfl
      obtain ⟨more, rfl⟩ := List.head?_eq_some_iff.mp (hstarts '.' rfl rfl)
      simp [fractionText] at h
    exact fractionText.eq_2 other hpoint
  | cons c text =>
    by_cases hc : c = '.'
    · subst hc
      simp only [List.cons_append, fractionText, List.cons.injEq, true_and] at h ⊢
      exact takeWhile_swap (hstarts.of_not_blank (forall_blank (by decide))) h
    · simp [fractionText, hc] at h

/-- A sign is decided by the first character of a text. -/
theorem signText_append {sign digits : List Char} (hdigits : digits ≠ [])
    (h : signText (sign ++ digits ++ rest) = sign) : signText (sign ++ digits ++ other) = sign := by
  obtain ⟨d, ds, hd⟩ : ∃ d ds, sign ++ digits = d :: ds :=
    List.exists_cons_of_ne_nil (List.append_ne_nil_of_right_ne_nil sign hdigits)
  rw [hd] at h ⊢
  by_cases hplus : d = '+'
  · simpa [signText, hplus] using h
  · by_cases hminus : d = '-'
    · simpa [signText, hminus] using h
    · simpa [signText, hplus, hminus] using h

theorem exponentText_swap (hstarts : StartsWithin (!isBlank ·) rest other)
    (h : exponentText (text ++ rest) = some text) : exponentText (text ++ other) = some text := by
  cases text with
  | nil =>
    cases other with
    | nil => rfl
    | cons d other =>
      have hd : ¬(d = 'e' || d = 'E') := by
        intro hd
        obtain ⟨more, rfl⟩ : ∃ more, rest = d :: more := by
          refine List.head?_eq_some_iff.mp (hstarts d rfl ?_)
          rcases Bool.or_eq_true_iff.mp hd with hd | hd <;> rw [of_decide_eq_true hd] <;> rfl
        simp only [List.nil_append, exponentText, hd, if_true] at h
        split at h <;> cases h
      rw [List.nil_append, exponentText, if_neg hd]
  | cons c text =>
    simp only [List.cons_append, exponentText] at h ⊢
    split at h
    · rename_i hc
      split at h
      · cases h
      · rename_i hdigits
        have htext := (List.cons.inj (Option.some.inj h)).2
        -- the text is a sign and at least one digit
        generalize hsign : signText (text ++ rest) = sign at hdigits htext
        generalize hrest : ((text ++ rest).drop sign.length).takeWhile Char.isDigit = digits
          at hdigits htext
        subst htext
        have hne : digits ≠ [] := by simpa using hdigits
        have hdrop : ∀ more, (sign ++ digits ++ more).drop sign.length = digits ++ more := by
          intro more
          rw [List.append_assoc, List.drop_left]
        rw [hdrop] at hrest
        rw [signText_append hne hsign, hdrop, takeWhile_swap
          (hstarts.of_not_blank (forall_blank (by decide))) hrest, if_pos hc, if_neg hdigits]
    · cases h

/-! ### Pieces -/

variable {piece : Piece}

theorem isBlank_quote (kind : StringKind) : isBlank kind.quote = false := by
  cases kind <;> rfl

theorem stringPiece_swap {lead : List Char} {kind : StringKind} {escapes : Bool}
    (hstarts : StartsWithin (!isBlank ·) rest other)
    (h : stringPiece lead kind escapes (text ++ rest) = .ok piece)
    (htext : piece.text = lead ++ kind.quote :: text) :
    stringPiece lead kind escapes (text ++ other) = .ok piece := by
  unfold stringPiece at h ⊢
  split at h
  · rename_i body hbody
    cases h
    obtain rfl : body ++ [kind.quote] = text := by simpa using htext
    rw [List.append_assoc, List.singleton_append] at hbody ⊢
    have hquote : StartsWithin (· == kind.quote) rest other := by
      refine hstarts.mono fun d hd => ?_
      rw [eq_of_beq hd, isBlank_quote]
      rfl
    rw [stringBody_swap hquote hbody]
  · cases h

theorem two_le_length_of_stringPiece {lead input : List Char} {kind : StringKind} {escapes : Bool}
    (h : stringPiece lead kind escapes input = .ok piece) : 2 ≤ piece.text.length := by
  unfold stringPiece at h
  split at h
  · cases h
    simp
    omega
  · cases h

theorem quotedNamePiece_swap {first close : Char} (hclose : isBlank close = false)
    (hstarts : StartsWithin (!isBlank ·) rest other)
    (h : quotedNamePiece first close (text ++ rest) = .ok piece)
    (htext : piece.text = first :: text) :
    quotedNamePiece first close (text ++ other) = .ok piece := by
  unfold quotedNamePiece at h ⊢
  split at h
  · cases h
  · rename_i name inner hne hname
    cases h
    obtain rfl := (List.cons.inj htext).2
    have hdelimiter : StartsWithin (· == close) rest other := by
      refine hstarts.mono fun d hd => ?_
      rw [eq_of_beq hd, hclose]
      rfl
    rw [quotedName_swap hdelimiter hname]
    cases name with
    | nil => exact (hne rfl).elim
    | cons c name => rfl
  · cases h

/-- A hexadecimal string is decided by its own text. -/
theorem hexStringPiece_swap {letter : Char} (h : hexStringPiece letter (text ++ rest) = .ok piece)
    (htext : piece.text = letter :: '\'' :: text) :
    hexStringPiece letter (text ++ other) = .ok piece := by
  simp only [hexStringPiece] at h
  split at h
  · cases h
  · split at h
    · cases h
      obtain ⟨digits, hdigits⟩ : ∃ digits, digits = (text ++ rest).takeWhile isHexDigit := ⟨_, rfl⟩
      rw [← hdigits] at htext ⊢
      obtain rfl : digits ++ ['\''] = text := by simpa using htext
      have hquote : ∀ d, ('\'' :: other).head? = some d → isHexDigit d = false := by
        rintro _ ⟨⟩
        rfl
      have htake : (digits ++ '\'' :: rest).takeWhile isHexDigit = digits := by
        simpa using hdigits.symm
      have htake : (digits ++ '\'' :: other).takeWhile isHexDigit = digits :=
        takeWhile_append_eq_left.mpr ⟨(takeWhile_append_eq_left.mp htake).1, hquote⟩
      have hdrop := List.takeWhile_append_dropWhile (p := isHexDigit) (l := digits ++ '\'' :: other)
      rw [htake] at hdrop
      simp only [hexStringPiece, List.append_assoc, List.singleton_append, htake,
        List.append_cancel_left hdrop, if_true]
    · cases h

theorem two_le_length_of_hexStringPiece {letter : Char} {input : List Char}
    (h : hexStringPiece letter input = .ok piece) : 2 ≤ piece.text.length := by
  simp only [hexStringPiece] at h
  split at h
  · cases h
  · split at h
    · cases h
      simp
    · cases h

theorem dropWhile_of_takeWhile {p : Char → Bool} (h : (text ++ rest).takeWhile p = text) :
    (text ++ rest).dropWhile p = rest := by
  have hwhole := List.takeWhile_append_dropWhile (p := p) (l := text ++ rest)
  rw [h] at hwhole
  exact List.append_cancel_left hwhole

theorem hexNumberPiece_swap {zero letter : Char} (hstarts : StartsWithin (!isBlank ·) rest other)
    (h : hexNumberPiece zero letter (text ++ rest) = .ok piece)
    (htext : piece.text = zero :: letter :: text) :
    hexNumberPiece zero letter (text ++ other) = .ok piece := by
  simp only [hexNumberPiece] at h ⊢
  split at h
  · cases h
  · rename_i hvalid
    cases h
    have hdigits : (text ++ rest).takeWhile isHexDigit = text := by simpa using htext
    have hother : (text ++ other).takeWhile isHexDigit = text :=
      takeWhile_swap (hstarts.of_not_blank (forall_blank (by decide))) hdigits
    rw [dropWhile_of_takeWhile hdigits, hdigits] at hvalid
    rw [dropWhile_of_takeWhile hother, hother, hdigits, if_neg]
    intro hsmall
    rw [Bool.or_eq_true] at hvalid hsmall
    exact hvalid (hsmall.imp_right (hstarts.of_not_blank (forall_blank (by decide))).any)

theorem two_le_length_of_hexNumberPiece {zero letter : Char} {input : List Char}
    (h : hexNumberPiece zero letter input = .ok piece) : 2 ≤ piece.text.length := by
  simp only [hexNumberPiece] at h
  split at h
  · cases h
  · cases h
    simp

theorem numberPiece_swap (hstarts : StartsWithin (!isBlank ·) rest other)
    (h : numberPiece (text ++ rest) = .ok piece) (htext : piece.text = text) :
    numberPiece (text ++ other) = .ok piece := by
  simp only [numberPiece] at h
  split at h
  · rename_i exponent hexponent
    cases h
    -- the text is made of the three parts that the scanners find in it
    generalize hwhole : (text ++ rest).takeWhile Char.isDigit = whole at *
    generalize hfraction : fractionText ((text ++ rest).drop whole.length) = fraction at *
    obtain rfl := htext
    have hdrop (more : List Char) : (whole ++ fraction ++ exponent ++ more).drop whole.length =
        fraction ++ (exponent ++ more) := by simp [List.append_assoc]
    have hmantissa (more : List Char) : (whole ++ fraction ++ exponent ++ more).drop
        (whole ++ fraction).length = exponent ++ more := by
      rw [List.append_assoc, List.drop_left]
    rw [hmantissa] at hexponent
    rw [hdrop] at hfraction
    rw [List.append_assoc, List.append_assoc] at hwhole
    have hwhole' := takeWhile_swap (((hstarts.append exponent).append fraction).of_not_blank
      (forall_blank (by decide))) hwhole
    have hfraction' := fractionText_swap (hstarts.append exponent) hfraction
    have hexponent' := exponentText_swap hstarts hexponent
    simp only [← List.append_assoc] at hwhole'
    simp only [numberPiece, hwhole', hdrop, hfraction', hmantissa, hexponent']
  · cases h

theorem two_le_length_of_numberPiece {input : List Char} (hdigit : input.head?.any Char.isDigit)
    (h : numberPiece ('.' :: input) = .ok piece) : 2 ≤ piece.text.length := by
  obtain ⟨d, ds, rfl⟩ : ∃ d ds, input = d :: ds := by
    cases input with
    | nil => cases hdigit
    | cons d ds => exact ⟨d, ds, rfl⟩
  simp only [numberPiece] at h
  split at h
  · cases h
    simp only [List.head?_cons, Option.any_some] at hdigit
    simp [fractionText, hdigit]
  · cases h

theorem placeholderPiece_swap {mark : Char} {inLabel : Char → Bool} {missing : SyntaxCause}
    (hblank : ∀ d, isBlank d → inLabel d = false) (hstarts : StartsWithin (!isBlank ·) rest other)
    (h : placeholderPiece mark inLabel missing (text ++ rest) = .ok piece)
    (htext : piece.text = mark :: text) :
    placeholderPiece mark inLabel missing (text ++ other) = .ok piece := by
  simp only [placeholderPiece] at h ⊢
  split at h
  · cases h
  · rename_i hne
    cases h
    have hlabel : (text ++ rest).takeWhile inLabel = text := (List.cons.inj htext).2
    rw [hlabel] at hne
    rw [takeWhile_swap (hstarts.of_not_blank hblank) hlabel, hlabel, if_neg hne]

theorem wordPiece_text {input : List Char} :
    (wordPiece input).text = input.takeWhile isNameChar := by
  simp only [wordPiece]
  split <;> rfl

theorem wordPiece_swap (hstarts : StartsWithin (!isBlank ·) rest other)
    (htext : (wordPiece (text ++ rest)).text = text) :
    wordPiece (text ++ other) = wordPiece (text ++ rest) := by
  rw [wordPiece_text] at htext
  have hother : (text ++ other).takeWhile isNameChar = text :=
    takeWhile_swap (hstarts.of_not_blank (forall_blank (by decide))) htext
  simp only [wordPiece, htext, hother]

/-- No symbol of two characters ends with a blank. -/
theorem symbolOfPair?_blank {c d : Char} (hd : isBlank d) : symbolOfPair? c d = none := by
  unfold symbolOfPair?
  split <;> first | rfl | cases hd

theorem symbolPiece_swap {c : Char} (hstarts : StartsWithin (!isBlank ·) rest other)
    (h : symbolPiece c (text ++ rest) = .ok piece) (htext : piece.text = c :: text) :
    symbolPiece c (text ++ other) = .ok piece := by
  cases text with
  | cons d text => exact h
  | nil =>
    rw [List.nil_append] at h ⊢
    unfold symbolPiece at h ⊢
    split at h
    · rename_i pair symbol hpair
      obtain ⟨d, -, hmap⟩ := Option.bind_eq_some_iff.mp hpair
      obtain ⟨_, -, heq⟩ := Option.map_eq_some_iff.mp hmap
      cases heq
      cases h
      cases htext
    · rename_i hsingle
      split
      · rename_i pair symbol hpair
        obtain ⟨d, hd, hmap⟩ := Option.bind_eq_some_iff.mp hpair
        have hrest : rest.head? = some d := by
          refine hstarts d hd ?_
          cases hblank : isBlank d with
          | false => exact congrArg not hblank
          | true =>
            rw [symbolOfPair?_blank hblank] at hmap
            cases hmap
        rw [hrest, Option.bind_some, hmap] at hsingle
        cases hsingle
      · exact h

/-! ### Literals after a letter -/

/-- A piece of two characters has a second one. -/
theorem exists_cons_of_two_le {c : Char} (hlong : 2 ≤ piece.text.length)
    (htext : piece.text = c :: text) : ∃ d tail, text = d :: tail := by
  refine List.exists_cons_of_ne_nil ?_
  rintro rfl
  rw [htext] at hlong
  cases Nat.not_succ_le_self 1 hlong

theorem markedString_swap {c : Char} {kind : StringKind} {escapes : Bool}
    (hstarts : StartsWithin (!isBlank ·) rest other) (hquote : (text ++ rest).head? = some '\'')
    (hkind : kind.quote = '\'')
    (h : stringPiece [c] kind escapes ((text ++ rest).drop 1) = .ok piece)
    (htext : piece.text = c :: text) :
    (text ++ other).head? = some '\'' ∧
      stringPiece [c] kind escapes ((text ++ other).drop 1) = .ok piece := by
  obtain ⟨d, tail, rfl⟩ := exists_cons_of_two_le (two_le_length_of_stringPiece h) htext
  obtain rfl := Option.some.inj hquote
  exact ⟨rfl, stringPiece_swap hstarts h (by rw [htext, hkind]; rfl)⟩

/-- A choice goes the same way in two places: where the second one takes its first side, so does the
first one, and where the first one does and gives this result, so does the second one. -/
theorem ite_eq_of_ite_eq {α : Type} {P Q : Prop} [Decidable P] [Decidable Q] {a a' b b' x : α}
    (hback : Q → P) (hyes : P → a = x → Q ∧ a' = x) (hno : b = x → b' = x)
    (h : (if P then a else b) = x) : (if Q then a' else b') = x := by
  by_cases hp : P
  · rw [if_pos hp] at h
    obtain ⟨hq, ha⟩ := hyes hp h
    rw [if_pos hq, ha]
  · rw [if_neg hp] at h
    rw [if_neg fun hq => hp (hback hq), hno h]

namespace Lexer

variable (lexer : Lexer) {c : Char}

/-- A letter marks a literal in front of the one text only where it does so in front of the
other. -/
theorem marks_swap {mark known : Bool} (hstarts : StartsWithin (!isBlank ·) rest other)
    (h : mark && other.head? = some '\'' && known) :
    mark && rest.head? = some '\'' && known := by
  simp only [Bool.and_eq_true, decide_eq_true_eq] at h ⊢
  exact h.imp_left (And.imp_right fun hnext => hstarts.next hnext rfl)

theorem tokenPiece_swap (hstarts : StartsWithin (!isBlank ·) rest other)
    (h : lexer.tokenPiece c (text ++ rest) = .ok piece) (htext : piece.text = c :: text) :
    lexer.tokenPiece c (text ++ other) = .ok piece := by
  have hnext := hstarts.append text
  unfold tokenPiece at h ⊢
  revert h
  apply ite_eq_of_ite_eq id
  · rintro rfl h
    exact ⟨rfl, stringPiece_swap hstarts h htext⟩
  apply ite_eq_of_ite_eq id
  · rintro rfl
    refine fun h => ⟨rfl, ?_⟩
    revert h
    apply ite_eq_of_ite_eq id
    · exact fun hstrings h => ⟨hstrings, stringPiece_swap hstarts h htext⟩
    · exact fun h => quotedNamePiece_swap rfl hstarts h htext
  apply ite_eq_of_ite_eq id
  · exact fun hc h => ⟨hc, quotedNamePiece_swap rfl hstarts h htext⟩
  apply ite_eq_of_ite_eq id
  · exact fun hc h => ⟨hc, quotedNamePiece_swap rfl hstarts h htext⟩
  apply ite_eq_of_ite_eq (marks_swap hnext)
  · simp only [Bool.and_eq_true, decide_eq_true_eq]
    rintro ⟨⟨hc, hquote⟩, hknown⟩ h
    obtain ⟨hquote, hpiece⟩ := markedString_swap hstarts hquote rfl h htext
    exact ⟨⟨⟨hc, hquote⟩, hknown⟩, hpiece⟩
  apply ite_eq_of_ite_eq (marks_swap hnext)
  · simp only [Bool.and_eq_true, decide_eq_true_eq]
    rintro ⟨⟨hc, hquote⟩, hknown⟩ h
    obtain ⟨hquote, hpiece⟩ := markedString_swap hstarts hquote rfl h htext
    exact ⟨⟨⟨hc, hquote⟩, hknown⟩, hpiece⟩
  apply ite_eq_of_ite_eq (marks_swap hnext)
  · simp only [Bool.and_eq_true, decide_eq_true_eq]
    rintro ⟨⟨hc, hquote⟩, hknown⟩ h
    obtain ⟨d, tail, rfl⟩ := exists_cons_of_two_le (two_le_length_of_hexStringPiece h) htext
    obtain rfl := Option.some.inj hquote
    exact ⟨⟨⟨hc, rfl⟩, hknown⟩, hexStringPiece_swap h htext⟩
  apply ite_eq_of_ite_eq
  · simp only [Bool.and_eq_true, Bool.or_eq_true, decide_eq_true_eq]
    exact And.imp_left (And.imp_right (Or.imp (hnext.next · rfl) (hnext.next · rfl)))
  · simp only [Bool.and_eq_true, Bool.or_eq_true, decide_eq_true_eq]
    rintro ⟨⟨hc, hletter⟩, hknown⟩ h
    obtain ⟨d, tail, rfl⟩ := exists_cons_of_two_le (two_le_length_of_hexNumberPiece h) htext
    refine ⟨⟨⟨hc, hletter⟩, hknown⟩, ?_⟩
    exact hexNumberPiece_swap hstarts h (by simpa using htext)
  apply ite_eq_of_ite_eq
  · simp only [Bool.and_eq_true, Bool.or_eq_true, decide_eq_true_eq]
    exact Or.imp_right (And.imp_right (hnext.of_not_blank (forall_blank (by decide))).any)
  · simp only [Bool.and_eq_true, Bool.or_eq_true, decide_eq_true_eq]
    intro hc h
    refine ⟨hc.imp_right ?_, ?_⟩
    · rintro ⟨rfl, hdigit⟩
      obtain ⟨d, tail, rfl⟩ := exists_cons_of_two_le (two_le_length_of_numberPiece hdigit h) htext
      exact ⟨rfl, hdigit⟩
    · rw [← List.cons_append] at h
      exact numberPiece_swap hstarts h htext
  apply ite_eq_of_ite_eq id
  · exact fun hc h => ⟨hc, h⟩
  apply ite_eq_of_ite_eq id
  · exact fun hc h =>
      ⟨hc, placeholderPiece_swap (forall_blank (by decide)) hstarts h htext⟩
  apply ite_eq_of_ite_eq id
  · exact fun hc h =>
      ⟨hc, placeholderPiece_swap (forall_blank (by decide)) hstarts h htext⟩
  apply ite_eq_of_ite_eq id
  · intro hc h
    cases h
    rw [← List.cons_append] at htext ⊢
    exact ⟨hc, congrArg Except.ok (wordPiece_swap hstarts htext)⟩
  · exact fun h => symbolPiece_swap hstarts h htext

/-- Where no gap starts, none does in front of another text. -/
theorem gap?_eq_none_swap (hstarts : StartsWithin (!isBlank ·) rest other)
    (h : lexer.gap? c rest = none) : lexer.gap? c other = none := by
  unfold gap? at h ⊢
  revert h
  refine ite_eq_of_ite_eq id (by simp)
    (ite_eq_of_ite_eq ?_ (by simp) (ite_eq_of_ite_eq ?_ ?_ fun _ => rfl))
  · simp only [Bool.or_eq_true, Bool.and_eq_true, decide_eq_true_eq]
    exact Or.imp_left (And.imp_right (hstarts.next · rfl))
  · simp only [Bool.and_eq_true, decide_eq_true_eq]
    exact And.imp_right (hstarts.next · rfl)
  · intro _ h
    split at h <;> cases h

theorem gap?_swap (hstarts : StartsWithin (fun _ => true) rest other)
    (h : lexer.gap? c (text ++ rest) = some (.ok (c :: text))) :
    lexer.gap? c (text ++ other) = some (.ok (c :: text)) := by
  have hnext := hstarts.append text
  unfold gap? at h ⊢
  revert h
  refine ite_eq_of_ite_eq id ?_ (ite_eq_of_ite_eq ?_ ?_ (ite_eq_of_ite_eq ?_ ?_ (by simp)))
  · intro hc h
    have htext : (text ++ rest).takeWhile isBlank = text := by simpa using h
    rw [takeWhile_swap (hstarts.mono fun _ _ => rfl) htext]
    exact ⟨hc, rfl⟩
  · simp only [Bool.or_eq_true, Bool.and_eq_true, decide_eq_true_eq]
    exact Or.imp_left (And.imp_right (hnext.next · rfl))
  · simp only [Bool.or_eq_true, Bool.and_eq_true, decide_eq_true_eq]
    intro hc h
    have htext : lineText (c :: text ++ rest) = c :: text := by simpa using h
    refine ⟨hc.imp_left ?_, ?_⟩
    · rintro ⟨rfl, hdash⟩
      cases text with
      | cons d text => exact ⟨rfl, hdash⟩
      | nil =>
        obtain ⟨cs, rfl⟩ := List.head?_eq_some_iff.mp hdash
        simp [lineText] at htext
    · rw [← List.cons_append, lineText_swap hstarts htext]
  · simp only [Bool.and_eq_true, decide_eq_true_eq]
    exact And.imp_right (hnext.next · rfl)
  · simp only [Bool.and_eq_true, decide_eq_true_eq]
    rintro ⟨rfl, hstar⟩ h
    split at h
    · rename_i body hbody
      obtain rfl : text = '*' :: body := by simpa using h.symm
      rw [List.cons_append, List.drop_one, List.tail_cons] at hbody
      rw [List.cons_append, List.drop_one, List.tail_cons, blockText_swap hbody]
      exact ⟨⟨rfl, rfl⟩, rfl⟩
    · cases h

/-- **A piece is decided by its own text and by how the text behind it starts.** A token stays the
same one when blanks come behind it. -/
theorem piece_swap {kind : PieceKind} (h : lexer.piece c (text ++ rest) = .ok ⟨c :: text, kind⟩)
    (hstarts : StartsWithin (!isBlank ·) rest other)
    (hgap : kind = .gap → StartsWithin (fun _ => true) rest other) :
    lexer.piece c (text ++ other) = .ok ⟨c :: text, kind⟩ := by
  unfold Lexer.piece at h ⊢
  split at h
  · rename_i found hfound
    cases found with
    | error misfit => cases h
    | ok found =>
      cases h
      rw [lexer.gap?_swap (hgap rfl) hfound]
      rfl
  · rename_i hnone
    rw [lexer.gap?_eq_none_swap (hstarts.append text) hnone]
    exact lexer.tokenPiece_swap hstarts h rfl

end Lexer

end SqlFront
