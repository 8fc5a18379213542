import SqlFront.Proofs.Cutting
import SqlFront.Proofs.Spelling

/-!
What stands between tokens: blanks and comments.

`Gap` says what a dialect may have there. It looks at the characters only, not at the lexer. The
lexer takes no other text for a gap, apart from a comment that the end of the text closes, and it
passes over every gap, whatever follows.
-/

namespace SqlFront

open Piece

/-- A comment that goes on to the end of its line, without that end. -/
inductive LineComment (dialect : Dialect) : List Char → Prop where
  | dashes {body : List Char} : '\n' ∉ body → LineComment dialect ('-' :: '-' :: body)
  | hash {body : List Char} :
      dialect.hashComments → '\n' ∉ body → LineComment dialect ('#' :: body)

/-- A comment with its end. -/
inductive Comment (dialect : Dialect) : List Char → Prop where
  | line {text : List Char} : LineComment dialect text → Comment dialect (text ++ ['\n'])
  | block {body : List Char} : ¬['*', '/'] <:+: body →
      Comment dialect ('/' :: '*' :: (body ++ ['*', '/']))

/-- Blanks and complete comments. -/
inductive Gap (dialect : Dialect) : List Char → Prop where
  | nil : Gap dialect []
  | blank {c : Char} {rest : List Char} : isBlank c → Gap dialect rest → Gap dialect (c :: rest)
  | comment {text rest : List Char} :
      Comment dialect text → Gap dialect rest → Gap dialect (text ++ rest)

/-- What stands behind the last token: the end of the text closes a comment, too. -/
inductive LastGap (dialect : Dialect) : List Char → Prop where
  | closed {text : List Char} : Gap dialect text → LastGap dialect text
  | unclosed {text comment : List Char} :
      Gap dialect text → LineComment dialect comment → LastGap dialect (text ++ comment)

namespace Gap

variable {dialect : Dialect} {left right text : List Char}

theorem append (hleft : Gap dialect left) (hright : Gap dialect right) :
    Gap dialect (left ++ right) := by
  induction hleft with
  | nil => exact hright
  | blank hc _ ih => exact .blank hc ih
  | comment htext _ ih =>
    rw [List.append_assoc]
    exact .comment htext ih

theorem of_comment (h : Comment dialect text) : Gap dialect text := by
  simpa using Gap.comment h .nil

theorem of_blanks (h : ∀ c ∈ text, isBlank c) : Gap dialect text := by
  induction text with
  | nil => exact .nil
  | cons c text ih =>
    rw [List.forall_mem_cons] at h
    exact .blank h.1 (ih h.2)

end Gap

/-- Every gap among the pieces has its end. -/
inductive Piece.Closed (dialect : Dialect) : List Piece → Prop where
  | nil : Closed dialect []
  | cons {piece : Piece} {pieces : List Piece} : (piece.kind = .gap → Gap dialect piece.text) →
      Closed dialect pieces → Closed dialect (piece :: pieces)

theorem Piece.Closed.append {dialect : Dialect} {left right : List Piece}
    (hleft : Closed dialect left) (hright : Closed dialect right) :
    Closed dialect (left ++ right) := by
  induction hleft with
  | nil => exact hright
  | cons hpiece _ ih => exact .cons hpiece ih

/-! ### Texts of comments -/

theorem lineText_append_newline {body : List Char} (hbody : '\n' ∉ body) (rest : List Char) :
    lineText (body ++ '\n' :: rest) = body ++ ['\n'] := by
  induction body with
  | nil => rfl
  | cons c body ih =>
    rw [List.mem_cons, not_or] at hbody
    rw [List.cons_append, lineText, if_neg (Ne.symm hbody.1), ih hbody.2]
    rfl

/-- A line ends with an end of line, or with the text. -/
theorem lineText_cases (input : List Char) :
    ∃ body tail, input = body ++ tail ∧ '\n' ∉ body ∧
      ((tail = [] ∧ lineText input = body) ∨
        (tail.head? = some '\n' ∧ lineText input = body ++ ['\n'])) := by
  by_cases hend : '\n' ∈ input
  · obtain ⟨body, rest, rfl, hbody⟩ := List.eq_append_cons_of_mem hend
    exact ⟨body, _, rfl, hbody, .inr ⟨rfl, lineText_append_newline hbody rest⟩⟩
  · refine ⟨input, [], (List.append_nil input).symm, hend, .inl ⟨rfl, ?_⟩⟩
    induction input with
    | nil => rfl
    | cons c input ih =>
      rw [List.mem_cons, not_or] at hend
      rw [lineText, if_neg (Ne.symm hend.1), ih hend.2]

theorem lineComment_of_mark {dialect : Dialect} {c : Char} {rest body tail : List Char}
    (hmark : (c = '-' ∧ rest.head? = some '-') ∨ (c = '#' ∧ dialect.hashComments))
    (hbody : '\n' ∉ body) (htail : ∀ d ∈ tail.head?, d = '\n') (hline : c :: rest = body ++ tail) :
    LineComment dialect body := by
  cases body with
  | nil =>
    obtain rfl := htail c (by rw [← List.nil_append tail, ← hline]; rfl)
    rcases hmark with ⟨hc, -⟩ | ⟨hc, -⟩ <;> cases hc
  | cons d body =>
    obtain ⟨rfl, rfl⟩ := List.cons.inj hline
    rw [List.mem_cons, not_or] at hbody
    rcases hmark with ⟨rfl, hnext⟩ | ⟨rfl, hhash⟩
    · cases body with
      | nil => cases htail _ hnext
      | cons d body =>
        obtain rfl := Option.some.inj hnext
        exact .dashes (List.not_mem_of_not_mem_cons hbody.2)
    · exact .hash hhash hbody.2

/-- A block comment ends where its end stands for the first time. -/
theorem blockText_append_end {body : List Char} (hbody : ¬['*', '/'] <:+: body)
    (rest : List Char) :
    blockText (body ++ '*' :: '/' :: rest) = some (body ++ ['*', '/']) := by
  induction body with
  | nil => rfl
  | cons c body ih =>
    have hopen : ∀ more, c = '*' → body ++ '*' :: '/' :: rest = '/' :: more → False := by
      rintro more rfl heq
      cases body with
      | nil => cases heq
      | cons d body =>
        obtain rfl := (List.cons.inj heq).1
        exact hbody ⟨[], body, rfl⟩
    rw [List.infix_cons_iff, not_or] at hbody
    rw [List.cons_append, blockText.eq_2 _ _ hopen, ih hbody.2]
    rfl

theorem exists_body_of_blockText {input text : List Char} (h : blockText input = some text) :
    ∃ body, text = body ++ ['*', '/'] ∧ ¬['*', '/'] <:+: body := by
  fun_induction blockText input generalizing text with
  | case1 rest =>
    obtain rfl := Option.some.inj h
    exact ⟨[], rfl, by simp⟩
  | case2 c cs hopen ih =>
    obtain ⟨inner, hinner, rfl⟩ := Option.map_eq_some_iff.mp h
    obtain ⟨body, rfl, hbody⟩ := ih hinner
    refine ⟨c :: body, rfl, ?_⟩
    rw [List.infix_cons_iff, not_or]
    refine ⟨?_, hbody⟩
    rintro ⟨more, heq⟩
    obtain ⟨rfl, rfl⟩ := List.cons.inj heq
    obtain ⟨tail, htail⟩ := blockText_isPrefix hinner
    exact hopen _ rfl htail.symm
  | case3 => cases h

/-! ### Gaps and the lexer -/

namespace Lexer

variable (lexer : Lexer)

/-- What the lexer takes for a gap is one, unless the text ends with it. -/
theorem gap_of_gap? {c : Char} {text rest : List Char}
    (h : lexer.gap? c (text ++ rest) = some (.ok (c :: text))) :
    Gap lexer.dialect (c :: text) ∨ (LineComment lexer.dialect (c :: text) ∧ rest = []) := by
  unfold gap? at h
  rcases ite_eq_iff.mp h with ⟨hblank, h⟩ | ⟨-, h⟩
  · have htext : (text ++ rest).takeWhile isBlank = text := by simpa using h
    exact .inl (.blank hblank (.of_blanks (takeWhile_append_eq_left.mp htext).1))
  rcases ite_eq_iff.mp h with ⟨hmark, h⟩ | ⟨-, h⟩
  · simp only [Bool.or_eq_true, Bool.and_eq_true, decide_eq_true_eq] at hmark
    have hline : lineText (c :: (text ++ rest)) = c :: text := by simpa using h
    obtain ⟨body, tail, hinput, hbody, ⟨rfl, htext⟩ | ⟨htail, htext⟩⟩ :=
      lineText_cases (c :: (text ++ rest))
    · have hcomment := lineComment_of_mark hmark hbody (by simp) hinput
      obtain rfl : c :: text = body := hline.symm.trans htext
      rw [← List.cons_append] at hinput
      exact .inr ⟨hcomment, List.append_cancel_left hinput⟩
    · have hcomment := lineComment_of_mark hmark hbody (by simp [htail]) hinput
      rw [← hline, htext]
      exact .inl (.of_comment (.line hcomment))
  rcases ite_eq_iff.mp h with ⟨hmark, h⟩ | ⟨-, h⟩
  · simp only [Bool.and_eq_true, decide_eq_true_eq] at hmark
    obtain ⟨rfl, -⟩ := hmark
    split at h
    · rename_i inner hinner
      obtain rfl : '*' :: inner = text := by simpa using h
      obtain ⟨body, rfl, hbody⟩ := exists_body_of_blockText hinner
      exact .inl (.of_comment (.block hbody))
    · cases h
  · cases h

theorem gap_of_piece {c : Char} {text rest : List Char}
    (h : lexer.piece c (text ++ rest) = .ok ⟨c :: text, .gap⟩) :
    Gap lexer.dialect (c :: text) ∨ (LineComment lexer.dialect (c :: text) ∧ rest = []) := by
  unfold Lexer.piece at h
  split at h
  · rename_i found hfound
    cases found with
    | error misfit => cases h
    | ok found =>
      cases h
      exact lexer.gap_of_gap? hfound
  · exact absurd rfl (lexer.scanned_of_tokenPiece h).spelled.ne_gap

theorem piece_of_comment {text : List Char} (h : Comment lexer.dialect text) (rest : List Char) :
    ∃ c cs, text = c :: cs ∧ lexer.piece c (cs ++ rest) = .ok ⟨c :: cs, .gap⟩ := by
  cases h with
  | line hline =>
    cases hline with
    | @dashes body hbody =>
      have hrest := lineText_append_newline hbody rest
      exact ⟨'-', '-' :: (body ++ ['\n']), rfl, by
        simp [Lexer.piece, gap?, isBlank, lineText, hrest, Except.map]⟩
    | @hash body hhash hbody =>
      have hrest := lineText_append_newline hbody rest
      exact ⟨'#', body ++ ['\n'], rfl, by
        simp [Lexer.piece, gap?, isBlank, lineText, hrest, hhash, Except.map]⟩
  | @block body hbody =>
    have hrest := blockText_append_end hbody rest
    exact ⟨'/', '*' :: (body ++ ['*', '/']), rfl, by
      simp [Lexer.piece, gap?, isBlank, hrest, Except.map]⟩

/-- Blanks that have been passed once can be passed again, one by one. -/
theorem lexemesFrom_blanks (parameters offset : Nat) (input : List Char) :
    lexer.lexemesFrom parameters offset (input.takeWhile isBlank).length input =
      lexer.lexemesFrom parameters offset 0 input := by
  cases input with
  | nil => rfl
  | cons c rest =>
    by_cases hc : isBlank c
    · have hpiece : lexer.piece c rest = .ok ⟨c :: rest.takeWhile isBlank, .gap⟩ := by
        simp [Lexer.piece, gap?, hc, Except.map]
      rw [List.takeWhile_cons_of_pos hc, List.length_cons, lexemesFrom, lexemesFrom, hpiece]
      rfl
    · rw [List.takeWhile_cons_of_neg hc]
      rfl

/-- **The lexer passes over a gap**, whatever stands behind it. -/
theorem lexemesFrom_gap {gap : List Char} (h : Gap lexer.dialect gap) (rest : List Char)
    (parameters offset : Nat) :
    lexer.lexemesFrom parameters offset 0 (gap ++ rest) =
      lexer.lexemesFrom parameters (offset + byteLength gap) 0 rest := by
  induction h generalizing offset with
  | nil => rfl
  | @blank c gap hc _ ih =>
    have hpiece : lexer.piece c (gap ++ rest) =
        .ok ⟨c :: (gap ++ rest).takeWhile isBlank, .gap⟩ := by
      simp [Lexer.piece, gap?, hc, Except.map]
    rw [List.cons_append, lexemesFrom, hpiece]
    simp only [List.length_cons, Nat.add_sub_cancel, lexemesFrom_blanks, ih, byteLength,
      Nat.add_assoc]
  | @comment text gap htext _ ih =>
    obtain ⟨c, cs, rfl, hpiece⟩ := lexer.piece_of_comment htext (gap ++ rest)
    rw [List.append_assoc, List.cons_append, lexemesFrom, hpiece]
    simp only [List.length_cons, Nat.add_sub_cancel]
    rw [lexemesFrom_passed (by simp), List.take_left, List.drop_left, ih, byteLength_append,
      byteLength, Nat.add_assoc, Nat.add_assoc, Nat.add_assoc]

/-! ### The gaps among pieces -/

variable {lexer} {pieces before after : List Piece}

theorem Cuts.textOf_ne_nil (h : lexer.Cuts pieces) (hne : pieces ≠ []) : textOf pieces ≠ [] := by
  cases h with
  | nil => exact absurd rfl hne
  | cons _ _ => simp

/-- Only the last piece of a text can be a comment without its end. -/
theorem Cuts.closed (h : lexer.Cuts (before ++ after)) (hafter : after ≠ []) :
    Closed lexer.dialect before := by
  induction before with
  | nil => exact .nil
  | cons piece before ih =>
    cases h with
    | @cons c text kind _ hpiece hrest =>
      refine .cons ?_ (ih hrest)
      rintro rfl
      rcases lexer.gap_of_piece hpiece with hgap | ⟨-, hnil⟩
      · exact hgap
      · exact absurd hnil (hrest.textOf_ne_nil (List.append_ne_nil_of_right_ne_nil _ hafter))

/-- A text ends with a piece that has its end, or in the middle of a comment. -/
theorem Cuts.closed_or (h : lexer.Cuts pieces) :
    Closed lexer.dialect pieces ∨ ∃ before comment, pieces = before ++ [⟨comment, .gap⟩] ∧
      Closed lexer.dialect before ∧ LineComment lexer.dialect comment := by
  obtain rfl | ⟨before, last, rfl⟩ := pieces.eq_nil_or_concat
  · exact .inl .nil
  rw [List.concat_eq_append] at h ⊢
  have hbefore := h.closed (List.cons_ne_nil last [])
  cases h.right with
  | @cons c text kind _ hpiece _ =>
    by_cases hkind : kind = .gap
    · subst hkind
      rcases lexer.gap_of_piece hpiece with hgap | ⟨hcomment, -⟩
      · exact .inl (hbefore.append (.cons (fun _ => hgap) .nil))
      · exact .inr ⟨before, _, rfl, hbefore, hcomment⟩
    · exact .inl (hbefore.append (.cons (absurd · hkind) .nil))

/-- After a piece, the text goes on as it would without it. -/
theorem lexemesFrom_piece_eq_ok {c : Char} {text rest : List Char} {kind : PieceKind}
    {parameters offset : Nat} {lexemes : List Lexeme}
    (hpiece : lexer.piece c (text ++ rest) = .ok ⟨c :: text, kind⟩) :
    lexer.lexemesFrom parameters offset 0 (c :: (text ++ rest)) = .ok lexemes ↔
      ∃ more, lexer.lexemesFrom (parameters + parametersOf [⟨c :: text, kind⟩])
        (offset + byteLength (c :: text)) 0 rest = .ok more ∧
        (lexeme? parameters offset ⟨c :: text, kind⟩).toList ++ more = lexemes := by
  rw [lexemesFrom_cons_eq_ok]
  constructor
  · rintro ⟨text', kind', rest', more, hrest, hfound, hmore⟩
    obtain ⟨rfl, rfl⟩ : text = text' ∧ kind = kind' := by
      simpa using hpiece.symm.trans hfound
    obtain rfl := List.append_cancel_left hrest
    exact ⟨more, hmore⟩
  · rintro ⟨more, hmore⟩
    exact ⟨text, kind, rest, more, rfl, hpiece, hmore⟩

/-- **The first tokens of a text are read in front of another rest, too**, where that does not start
with what the last of their pieces could go on with. A blank is nothing that a token goes on
with. -/
theorem Cuts.lexemesFrom_refill {rest : List Char} {lexemes : List Lexeme}
    (h : lexer.Cuts (before ++ after)) (hclosed : Closed lexer.dialect before)
    (hstarts : StartsWithin (!isBlank ·) (textOf after) rest) (parameters offset : Nat) :
    lexer.lexemesFrom parameters offset 0 (textOf before ++ rest) = .ok lexemes ↔
      ∃ more, lexer.lexemesFrom (parameters + parametersOf before)
        (offset + byteLength (textOf before)) 0 rest = .ok more ∧
        lexemesOf parameters offset before ++ more = lexemes := by
  induction before generalizing parameters offset lexemes with
  | nil => simp [textOf, lexemesOf, parametersOf, byteLength]
  | cons piece before ih =>
    cases hclosed with
    | cons hgap hclosed =>
    cases h with
    | @cons c text kind _ hpiece hrest =>
    have hnext {lexemes : List Lexeme} := @ih lexemes hrest hclosed
      (parameters + parametersOf [⟨c :: text, kind⟩]) (offset + byteLength (c :: text))
    rw [parametersOf_cons, textOf_cons, lexemesOf, List.append_assoc, byteLength_append]
    simp only [List.append_assoc, ← Nat.add_assoc]
    by_cases hkind : kind = .gap
    · -- in front of another rest, blanks can be cut into other pieces, but still give no token
      subst hkind
      rw [lexer.lexemesFrom_gap (hgap rfl)]
      simpa [lexeme?, parametersOf] using hnext
    · have hpiece' : lexer.piece c (text ++ (textOf before ++ rest)) = .ok ⟨c :: text, kind⟩ := by
        rw [List.append_eq, textOf_append] at hpiece
        exact lexer.piece_swap hpiece (hstarts.append _) (absurd · hkind)
      rw [List.cons_append, lexemesFrom_piece_eq_ok hpiece']
      constructor
      · rintro ⟨_, htail, rfl⟩
        obtain ⟨more, hmore, rfl⟩ := hnext.mp htail
        exact ⟨more, hmore, rfl⟩
      · rintro ⟨more, hmore, rfl⟩
        exact ⟨_, hnext.mpr ⟨more, hmore, rfl⟩, rfl⟩

end Lexer

end SqlFront
