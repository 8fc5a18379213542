import SqlFront.Proofs.Spelling

/-!
What the lexer takes off the front of a text, and where the tokens of a text lie.

Every piece is a beginning of the text that is not empty, so the pieces follow each other through
the text. The tokens among them keep that order, and the end of the text comes once, after all of
them.
-/

namespace SqlFront

/-- A piece that a text can start with: a beginning of it that is not empty, and not its end. -/
structure Piece.Opens (piece : Piece) (input : List Char) : Prop where
  isPrefix : piece.text <+: input
  nonempty : piece.text ≠ []
  proper : piece.kind ≠ .token .eof

/-- A beginning of a text, and a beginning of what comes after it. -/
theorem append_isPrefix {first second input : List Char} (hfirst : first <+: input)
    (hsecond : second <+: input.drop first.length) : first ++ second <+: input := by
  obtain ⟨rest, rfl⟩ := hfirst
  rw [List.drop_left] at hsecond
  exact (List.prefix_append_right_inj first).mpr hsecond

/-! ### Texts of pieces -/

theorem lineText_isPrefix (input : List Char) : lineText input <+: input := by
  fun_induction lineText input with
  | case1 => exact List.prefix_rfl
  | case2 cs => exact ⟨cs, rfl⟩
  | case3 c cs h ih => exact (List.prefix_cons_inj c).mpr ih

theorem blockText_isPrefix {input text : List Char} (h : blockText input = some text) :
    text <+: input := by
  fun_induction blockText input generalizing text with
  | case1 rest =>
    obtain rfl := Option.some.inj h
    exact ⟨rest, rfl⟩
  | case2 c cs hc ih =>
    obtain ⟨more, hmore, rfl⟩ := Option.map_eq_some_iff.mp h
    exact (List.prefix_cons_inj c).mpr (ih hmore)
  | case3 => cases h

/-- The body of a string is followed by the closing quote. -/
theorem stringBody_isPrefix {quote : Char} {escapes : Bool} {input body : List Char}
    (h : stringBody quote escapes input = some body) : body ++ [quote] <+: input := by
  fun_induction stringBody quote escapes input generalizing body with
  | case1 => cases h
  | case2 => cases h
  | case3 c hc d rest ih =>
    obtain ⟨more, hmore, rfl⟩ := Option.map_eq_some_iff.mp h
    simpa using ih hmore
  | case4 =>
    obtain rfl := Option.some.inj h
    exact List.prefix_rfl
  | case5 hc rest ih =>
    obtain ⟨more, hmore, rfl⟩ := Option.map_eq_some_iff.mp h
    simpa using ih hmore
  | case6 d rest hd hc =>
    obtain rfl := Option.some.inj h
    exact ⟨d :: rest, rfl⟩
  | case7 c cs hc hd ih =>
    obtain ⟨more, hmore, rfl⟩ := Option.map_eq_some_iff.mp h
    simpa using ih hmore

theorem quotedName_isPrefix {close : Char} {input name text : List Char}
    (h : quotedName close input = some (name, text)) : text <+: input := by
  fun_induction quotedName close input generalizing name text with
  | case1 => cases h
  | case2 =>
    cases h
    exact List.prefix_rfl
  | case3 rest ih =>
    obtain ⟨⟨more, moreText⟩, hmore, hpair⟩ := Option.map_eq_some_iff.mp h
    cases hpair
    simpa using ih hmore
  | case4 d rest hd =>
    cases h
    exact ⟨d :: rest, rfl⟩
  | case5 c cs hc ih =>
    obtain ⟨⟨more, moreText⟩, hmore, hpair⟩ := Option.map_eq_some_iff.mp h
    cases hpair
    simpa using ih hmore

theorem fractionText_isPrefix (input : List Char) : fractionText input <+: input := by
  unfold fractionText
  split
  · simpa using List.takeWhile_prefix _
  · exact List.nil_prefix

theorem signText_isPrefix (input : List Char) : signText input <+: input := by
  unfold signText
  split
  · exact ⟨_, rfl⟩
  · exact ⟨_, rfl⟩
  · exact List.nil_prefix

theorem exponentText_isPrefix {input text : List Char} (h : exponentText input = some text) :
    text <+: input := by
  cases input with
  | nil => simp_all [exponentText]
  | cons c cs =>
    simp only [exponentText] at h
    split at h
    · split at h
      · cases h
      · obtain rfl := Option.some.inj h
        have hrest := append_isPrefix (signText_isPrefix cs)
          (List.takeWhile_prefix (l := cs.drop (signText cs).length) Char.isDigit)
        simpa using hrest
    · obtain rfl := Option.some.inj h
      exact List.nil_prefix

/-! ### Pieces -/

theorem stringPiece_opens {lead rest : List Char} {kind : StringKind} {escapes : Bool}
    {piece : Piece} (h : stringPiece lead kind escapes rest = .ok piece) :
    piece.Opens (lead ++ kind.quote :: rest) := by
  unfold stringPiece at h
  split at h
  · rename_i body hbody
    cases h
    refine ⟨?_, by simp, by simp⟩
    simpa using stringBody_isPrefix hbody
  · cases h

theorem quotedNamePiece_opens {first close : Char} {rest : List Char} {piece : Piece}
    (h : quotedNamePiece first close rest = .ok piece) : piece.Opens (first :: rest) := by
  unfold quotedNamePiece at h
  split at h
  · cases h
  · rename_i name text _ hname
    cases h
    refine ⟨?_, by simp, by simp⟩
    simpa using quotedName_isPrefix hname
  · cases h

theorem hexStringPiece_opens {letter : Char} {rest : List Char} {piece : Piece}
    (h : hexStringPiece letter rest = .ok piece) :
    piece.Opens (letter :: '\'' :: rest) := by
  simp only [hexStringPiece] at h
  split at h
  · cases h
  · rename_i c cs hdrop
    split at h
    · rename_i hc
      cases h
      refine ⟨?_, by simp, by simp⟩
      have hrest : rest = rest.takeWhile isHexDigit ++ '\'' :: cs := by
        rw [← hc, ← hdrop, List.takeWhile_append_dropWhile]
      refine ⟨cs, ?_⟩
      conv => rhs; rw [hrest]
      simp
    · cases h

theorem hexNumberPiece_opens {zero letter : Char} {rest : List Char} {piece : Piece}
    (h : hexNumberPiece zero letter rest = .ok piece) :
    piece.Opens (zero :: letter :: rest) := by
  simp only [hexNumberPiece] at h
  split at h
  · cases h
  · cases h
    refine ⟨?_, by simp, by simp⟩
    simpa using List.takeWhile_prefix isHexDigit

/-- What starts like a number has a mantissa. -/
theorem mantissa_ne_nil {c : Char} {rest : List Char}
    (h : c.isDigit || (c = '.' && rest.head?.any Char.isDigit)) :
    (c :: rest).takeWhile Char.isDigit ++
      fractionText ((c :: rest).drop ((c :: rest).takeWhile Char.isDigit).length) ≠ [] := by
  by_cases hc : c.isDigit
  · simp [hc]
  · obtain rfl : c = '.' := by simp_all
    simp [List.takeWhile, fractionText]

theorem numberPiece_opens {c : Char} {rest : List Char} {piece : Piece}
    (hstart : c.isDigit || (c = '.' && rest.head?.any Char.isDigit))
    (h : numberPiece (c :: rest) = .ok piece) : piece.Opens (c :: rest) := by
  have hmantissa := append_isPrefix (List.takeWhile_prefix (l := c :: rest) Char.isDigit)
    (fractionText_isPrefix _)
  have hne := mantissa_ne_nil hstart
  simp only [numberPiece] at h
  split at h
  · rename_i exponent hexponent
    cases h
    refine ⟨append_isPrefix hmantissa (exponentText_isPrefix hexponent), ?_, by simp⟩
    intro hnil
    exact hne (List.append_eq_nil_iff.mp hnil).1
  · cases h

theorem placeholderPiece_opens {mark : Char} {inLabel : Char → Bool} {missing : SyntaxCause}
    {rest : List Char} {piece : Piece}
    (h : placeholderPiece mark inLabel missing rest = .ok piece) : piece.Opens (mark :: rest) := by
  simp only [placeholderPiece] at h
  split at h
  · cases h
  · cases h
    refine ⟨?_, by simp, by simp⟩
    simpa using List.takeWhile_prefix inLabel

/-- What can start a name can go on in one. -/
theorem isNameChar_of_isNameStart {c : Char} (h : isNameStart c) : isNameChar c := by
  simp only [isNameStart, isNameChar, Char.isAlphanum, Bool.or_eq_true] at *
  tauto

theorem wordPiece_opens {c : Char} {rest : List Char} (hstart : isNameStart c) :
    (wordPiece (c :: rest)).Opens (c :: rest) := by
  have hne : (c :: rest).takeWhile isNameChar ≠ [] := by
    simp [isNameChar_of_isNameStart hstart]
  have hbegins := List.takeWhile_prefix (l := c :: rest) isNameChar
  simp only [wordPiece]
  split
  · exact ⟨hbegins, hne, by simp⟩
  · exact ⟨hbegins, hne, by simp⟩

theorem symbolPiece_opens {c : Char} {rest : List Char} {piece : Piece}
    (h : symbolPiece c rest = .ok piece) : piece.Opens (c :: rest) := by
  unfold symbolPiece at h
  split at h
  · rename_i text symbol hpair
    cases h
    obtain ⟨d, hd, hmap⟩ := Option.bind_eq_some_iff.mp hpair
    obtain ⟨_, _, heq⟩ := Option.map_eq_some_iff.mp hmap
    cases heq
    obtain ⟨cs, rfl⟩ : ∃ cs, rest = d :: cs := List.head?_eq_some_iff.mp hd
    exact ⟨⟨cs, rfl⟩, by simp, by simp⟩
  · split at h
    · cases h
      exact ⟨⟨rest, rfl⟩, by simp, by simp⟩
    · cases h

theorem Scanned.opens {input : List Char} {piece : Piece} (h : Scanned input piece) :
    piece.Opens input := by
  cases h with
  | string _ h => exact stringPiece_opens h
  | quotedName h => exact quotedNamePiece_opens h
  | hexString _ h => exact hexStringPiece_opens h
  | hexNumber _ h => exact hexNumberPiece_opens h
  | number hstart h => exact numberPiece_opens hstart h
  | @parameter rest => exact ⟨⟨rest, rfl⟩, by simp, by simp⟩
  | labelled _ h => exact placeholderPiece_opens h
  | word hstart => exact wordPiece_opens hstart
  | symbol h => exact symbolPiece_opens h

namespace Lexer

variable (lexer : Lexer)

theorem gap?_isPrefix {c : Char} {rest text : List Char}
    (h : lexer.gap? c rest = some (.ok text)) : text <+: c :: rest ∧ text ≠ [] := by
  simp only [gap?] at h
  split at h
  · cases h
    exact ⟨(List.prefix_cons_inj c).mpr (List.takeWhile_prefix _), by simp⟩
  · split at h
    · cases h
      refine ⟨lineText_isPrefix _, ?_⟩
      rw [lineText]
      split <;> simp
    · split at h
      · rename_i hopen
        split at h
        · rename_i body hbody
          cases h
          obtain ⟨cs, rfl⟩ : ∃ cs, rest = '*' :: cs := List.head?_eq_some_iff.mp (by simp_all)
          have hcs := blockText_isPrefix hbody
          exact ⟨by simpa using hcs, by simp⟩
        · cases h
      · cases h

/-- **Every piece is a beginning of the text that is not empty.** -/
theorem piece_opens {c : Char} {rest : List Char} {piece : Piece}
    (h : lexer.piece c rest = .ok piece) : piece.Opens (c :: rest) := by
  unfold Lexer.piece at h
  split at h
  · rename_i text htext
    cases text with
    | error misfit => cases h
    | ok text =>
      cases h
      obtain ⟨hbegins, hne⟩ := lexer.gap?_isPrefix htext
      exact ⟨hbegins, hne, by simp⟩
  · exact (lexer.scanned_of_tokenPiece h).opens

end Lexer

/-! ### The tokens of a text -/

/-- Tokens that lie apart from each other and in order, from a place on, none of them empty and
none the end of the text. -/
structure Spaced (offset : Nat) (lexemes : List Lexeme) : Prop where
  after : ∀ lexeme ∈ lexemes, offset ≤ lexeme.span.start
  filled : ∀ lexeme ∈ lexemes, lexeme.span.start < lexeme.span.stop
  apart : lexemes.Pairwise fun left right => left.span.stop ≤ right.span.start
  proper : ∀ lexeme ∈ lexemes, lexeme.token ≠ .eof

namespace Spaced

theorem nil (offset : Nat) : Spaced offset [] := ⟨by simp, by simp, .nil, by simp⟩

theorem mono {low high : Nat} {lexemes : List Lexeme} (h : Spaced high lexemes) (hle : low ≤ high) :
    Spaced low lexemes :=
  ⟨fun lexeme hmem => Nat.le_trans hle (h.after lexeme hmem), h.filled, h.apart, h.proper⟩

theorem cons {offset : Nat} {lexeme : Lexeme} {lexemes : List Lexeme}
    (h : Spaced lexeme.span.stop lexemes) (hstart : offset ≤ lexeme.span.start)
    (hfilled : lexeme.span.start < lexeme.span.stop) (hproper : lexeme.token ≠ .eof) :
    Spaced offset (lexeme :: lexemes) where
  after := by
    intro other hmem
    rcases List.mem_cons.mp hmem with rfl | hmem
    · exact hstart
    · have := h.after other hmem
      omega
  filled := by
    intro other hmem
    rcases List.mem_cons.mp hmem with rfl | hmem
    · exact hfilled
    · exact h.filled other hmem
  apart := .cons h.after h.apart
  proper := by
    intro other hmem
    rcases List.mem_cons.mp hmem with rfl | hmem
    · exact hproper
    · exact h.proper other hmem

end Spaced

theorem byteLength_pos {text : List Char} (h : text ≠ []) : 0 < byteLength text := by
  cases text with
  | nil => exact absurd rfl h
  | cons c cs =>
    have := c.utf8Size_pos
    simp only [byteLength]
    omega

/-- After a piece, the text goes on where the piece ends. -/
theorem Piece.Opens.next {piece : Piece} {c : Char} {rest : List Char}
    (h : piece.Opens (c :: rest)) (offset : Nat) :
    piece.text.length - 1 ≤ rest.length ∧
      offset + c.utf8Size + byteLength (rest.take (piece.text.length - 1)) =
        offset + byteLength piece.text := by
  obtain ⟨tail, htail⟩ := h.isPrefix
  obtain ⟨d, text, htext⟩ := List.exists_cons_of_ne_nil h.nonempty
  rw [htext, List.cons_append, List.cons.injEq] at htail
  obtain ⟨rfl, rfl⟩ := htail
  simp [htext, byteLength]
  omega

namespace Lexer

/-- **The tokens of a text lie in it in order**, and the end of the text comes after them. -/
theorem lexemesFrom_spaced (lexer : Lexer) {parameters offset passed : Nat} {input : List Char}
    {lexemes : List Lexeme} (hpassed : passed ≤ input.length)
    (h : lexer.lexemesFrom parameters offset passed input = .ok lexemes) :
    ∃ tokens stop, lexemes = tokens ++ [⟨.eof, ⟨stop, stop⟩⟩] ∧
      Spaced (offset + byteLength (input.take passed)) tokens := by
  induction input generalizing parameters offset passed lexemes with
  | nil =>
    cases h
    exact ⟨[], offset, rfl, .nil _⟩
  | cons c rest ih =>
    cases passed with
    | succ passed =>
      rw [lexemesFrom] at h
      obtain ⟨tokens, stop, rfl, hspaced⟩ := ih (by simpa using hpassed) h
      refine ⟨tokens, stop, rfl, ?_⟩
      simpa [byteLength, Nat.add_assoc] using hspaced
    | zero =>
      rw [lexemesFrom] at h
      split at h
      · cases h
      · rename_i text kind hpiece
        have hopens := lexer.piece_opens hpiece
        obtain ⟨hlength, hnext⟩ := hopens.next offset
        have hpos := byteLength_pos hopens.nonempty
        simp only at hlength hnext hpos
        simp only [List.take_zero, byteLength, Nat.add_zero]
        -- what comes after the piece starts where the piece ends
        have after : ∀ {parameters lexemes}, lexer.lexemesFrom parameters (offset + c.utf8Size)
            (text.length - 1) rest = .ok lexemes →
            ∃ tokens stop, lexemes = tokens ++ [⟨.eof, ⟨stop, stop⟩⟩] ∧
              Spaced (offset + byteLength text) tokens := by
          intro parameters lexemes hrest
          rw [← hnext]
          exact ih hlength hrest
        cases kind with
        | gap =>
          obtain ⟨tokens, stop, rfl, hspaced⟩ := after h
          exact ⟨tokens, stop, rfl, hspaced.mono (Nat.le_add_right _ _)⟩
        | token token =>
          simp only [bind_eq_ok, pure_eq_ok] at h
          obtain ⟨more, hmore, rfl⟩ := h
          obtain ⟨tokens, stop, rfl, hspaced⟩ := after hmore
          refine ⟨_ :: tokens, stop, rfl, .cons hspaced (Nat.le_refl _) ?_ ?_⟩
          · simpa using hpos
          · simpa using hopens.proper
        | parameter =>
          simp only [bind_eq_ok, pure_eq_ok] at h
          obtain ⟨more, hmore, rfl⟩ := h
          obtain ⟨tokens, stop, rfl, hspaced⟩ := after hmore
          refine ⟨_ :: tokens, stop, rfl, .cons hspaced (Nat.le_refl _) ?_ (by simp)⟩
          simpa using hpos

theorem lexemes_spaced (lexer : Lexer) {source : Source} {lexemes : List Lexeme}
    (h : lexer.lexemes source = .ok lexemes) :
    ∃ tokens stop, lexemes = tokens ++ [⟨.eof, ⟨stop, stop⟩⟩] ∧ Spaced 0 tokens := by
  obtain ⟨tokens, stop, rfl, hspaced⟩ := lexer.lexemesFrom_spaced (Nat.zero_le _) h
  exact ⟨tokens, stop, rfl, hspaced.mono (Nat.zero_le _)⟩

end Lexer

end SqlFront
