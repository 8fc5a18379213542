import SqlFront.Proofs.Gaps
import SqlFront.Proofs.ParallelBatch
import SqlFront.Proofs.PartTokens

/-!
Batches behind each other.

An end of line and a semicolon stand between two texts. Whatever the first text ends with, the
tokens of the whole are those of the first text, the semicolon, and those of the second text, so the
statements of the two texts do not touch each other. Only the numbers of the placeholders of the
second text go on where those of the first one end.
-/

namespace SqlFront

open Piece Build.Context

/-! ### Numbers of placeholders -/

theorem renumber_numbered (n k : Nat) :
    renumber n ("?" ++ toString k) = "?" ++ toString (k + n) := by
  have hdigits : (toString k).toList = Nat.toDigits 10 k := by
    rw [Nat.toString_eq_ofList_toDigits, String.toList_ofList]
  have hnumber : Nat.ofDigitChars 10 ("?" ++ toString k).toList.tail 0 = k := by
    rw [String.toList_append, hdigits]
    exact Nat.ofDigitChars_ten_toDigits
  simp only [renumber, hnumber, if_pos]

/-- Labels that were written are kept. -/
theorem renumber_written {label : String} (h : (Token.placeholder label).isNumbered = false)
    (n : Nat) : renumber n label = label := by
  unfold renumber
  apply if_neg
  intro heq
  rw [heq] at h
  simp [Token.isNumbered] at h

theorem Token.seen_whole (token : Token) : token.seen .whole = token := by
  cases token <;> rfl

theorem Token.seen_renumbered {token : Token} (h : token.isNumbered = false) (n : Nat) :
    token.seen (.renumbered n) = token := by
  cases token with
  | placeholder label => exact congrArg placeholder (renumber_written h n)
  | _ => rfl

/-- A written label starts with its mark. -/
theorem Token.Spelled.isNumbered_eq_false {token : Token} {text : List Char}
    (h : token.Spelled text) (htext : text ≠ ['?']) : token.isNumbered = false := by
  cases h with
  | labelled hmark => rcases hmark with rfl | rfl <;> simp [isNumbered]
  | numbered => exact absurd rfl htext
  | _ => rfl

namespace Lexer

variable {lexer : Lexer} {pieces : List Piece}

theorem piece_semicolon (lexer : Lexer) (rest : List Char) :
    lexer.piece ';' rest = .ok ⟨[';'], .token (.symbol .semicolon)⟩ := by
  have hpair (d : Char) : symbolOfPair? ';' d = none := by
    simp [symbolOfPair?]
  simp [Lexer.piece, gap?, tokenPiece, isBlank, isNameStart, symbolPiece, hpair, symbolOfChar?]

/-- Only the placeholders without a label have a number for one. -/
theorem Cuts.isNumbered_eq_false (h : lexer.Cuts pieces) :
    ∀ piece ∈ pieces, ∀ token, piece.kind = .token token → token.isNumbered = false := by
  induction h with
  | nil => simp
  | @cons c text kind pieces hpiece _ ih =>
    refine List.forall_mem_cons.mpr ⟨?_, ih⟩
    rintro token rfl
    rcases lexer.piece_spelled hpiece with hgap | hspelled
    · cases hgap
    · cases hspelled with
      | token htoken =>
        apply htoken.isNumbered_eq_false
        rintro ⟨⟩
        rw [lexer.piece_question] at hpiece
        cases hpiece

theorem Cuts.countP_isNumbered (h : lexer.Cuts pieces) (parameters offset : Nat) :
    (lexemesOf parameters offset pieces).countP (·.token.isNumbered) = parametersOf pieces := by
  have hothers := h.isNumbered_eq_false
  clear h
  induction pieces generalizing parameters offset with
  | nil => rfl
  | cons piece pieces ih =>
    rw [List.forall_mem_cons] at hothers
    rw [lexemesOf, List.countP_append, ih _ _ hothers.2, parametersOf_cons]
    congr 1
    cases hkind : piece.kind with
    | gap => simp [lexeme?, parametersOf, hkind]
    | token token => simp [lexeme?, parametersOf, hkind, hothers.1 token hkind]
    | parameter => simp [lexeme?, parametersOf, hkind, Token.isNumbered]

/-- **An end of line ends every piece**, also a comment that goes on to the end of the text. -/
theorem Cuts.lexemesFrom_newline (h : lexer.Cuts pieces) {rest : List Char} {lexemes : List Lexeme}
    (parameters offset : Nat) :
    lexer.lexemesFrom parameters offset 0 (textOf pieces ++ '\n' :: rest) = .ok lexemes ↔
      ∃ more, lexer.lexemesFrom (parameters + parametersOf pieces)
        (offset + byteLength (textOf pieces) + 1) 0 rest = .ok more ∧
        lexemesOf parameters offset pieces ++ more = lexemes := by
  have hblank : StartsWithin (!isBlank ·) [] ('\n' :: rest) := by
    rintro _ ⟨⟩ hd
    cases hd
  rcases h.closed_or with hclosed | ⟨before, comment, rfl, hclosed, hcomment⟩
  · have hgap : Gap lexer.dialect ['\n'] := .blank rfl .nil
    have hnext := lexer.lexemesFrom_gap hgap rest
    rw [List.singleton_append] at hnext
    rw [← List.append_nil pieces] at h
    rw [h.lexemesFrom_refill hclosed hblank, hnext]
    rfl
  · -- the comment took all there was, and would take the end of line too: together they are a gap
    have hgap : Gap lexer.dialect (comment ++ ['\n']) := .of_comment (.line hcomment)
    have hstarts := hblank.append comment
    have hnext := lexer.lexemesFrom_gap hgap rest
    rw [List.append_assoc, List.singleton_append] at hnext
    have htext : textOf [⟨comment, .gap⟩] = comment := by simp
    rw [textOf_append, List.append_assoc, htext, h.lexemesFrom_refill hclosed hstarts, hnext]
    have hlength : offset + byteLength (textOf before) + byteLength (comment ++ ['\n']) =
        offset + byteLength (textOf before ++ comment) + 1 := by
      rw [byteLength_append, byteLength_append, ← Nat.add_assoc, Nat.add_assoc offset]
      rfl
    have hcount : parametersOf (before ++ [⟨comment, .gap⟩]) = parametersOf before := by
      simp [parametersOf]
    have hlexemes : lexemesOf parameters offset (before ++ [⟨comment, .gap⟩]) =
        lexemesOf parameters offset before := by
      simp [lexemesOf_append, lexemesOf, lexeme?]
    rw [hlength, hcount, hlexemes]

/-- The tokens of two texts with an end of line and a semicolon between them. -/
theorem lexemes_joined {before after : List Piece} (hbefore : lexer.Cuts before)
    (hafter : lexer.Cuts after) :
    lexer.lexemes (textOf before ++ '\n' :: ';' :: textOf after) =
      .ok (lexemesOf 0 0 before ++
        ⟨.symbol .semicolon, ⟨byteLength (textOf before) + 1, byteLength (textOf before) + 2⟩⟩ ::
          (lexemesOf (parametersOf before) (byteLength (textOf before) + 2) after ++
            [endOf (textOf after) (byteLength (textOf before) + 2)])) := by
  refine (hbefore.lexemesFrom_newline 0 0).mpr ⟨_, ?_, rfl⟩
  rw [Nat.zero_add, Nat.zero_add]
  refine (lexemesFrom_piece_eq_ok (lexer.piece_semicolon _)).mpr ⟨_, ?_, rfl⟩
  exact lexemesFrom_eq_ok.mpr ⟨after, hafter, rfl, rfl⟩

end Lexer

/-! ### Two batches in one -/

section

variable {config : Config} {before after : List Piece} {queries : List Query}

/-- The second text stands behind the end of line and the semicolon. -/
theorem hasAt_joined (before after : List Char) :
    Source.HasAt (before ++ '\n' :: ';' :: after) (byteLength before + 2) after :=
  ⟨before ++ ['\n', ';'], [], by simp, by rw [byteLength_append]; rfl⟩

/-- The second text has its own queries, with later numbers for its placeholders. -/
theorem readsQueries_behind (before : List Char) (hafter : config.lexer.Cuts after) (n : Nat) :
    ReadsQueries { config, source := before ++ '\n' :: ';' :: textOf after }
        (lexemesOf n (byteLength before + 2) after ++
          [endOf (textOf after) (byteLength before + 2)]) queries ↔
      ∃ second, ReadsQueries { config, source := textOf after }
        (lexemesOf 0 0 after ++ [endOf (textOf after) 0]) second ∧
        queries = second.map (Query.seen (.renumbered n)) := by
  have hbehind := hasAt_joined before (textOf after)
  have halone := Source.HasAt.whole (textOf after)
  have hlabels (k : Nat) :
      renumber n ("?" ++ toString (0 + k + 1)) = "?" ++ toString (n + k + 1) := by
    rw [renumber_numbered, Nat.zero_add, Nat.add_right_comm, Nat.add_comm k]
  have hothers (piece : Piece) (hmem : piece ∈ after) (token : Token)
      (hkind : piece.kind = .token token) : token.seen (.renumbered n) = token.seen .whole := by
    rw [Token.seen_renumbered (hafter.isNumbered_eq_false piece hmem token hkind),
      Token.seen_whole]
  have haliases : View.whole.aliasName = (View.renumbered n).aliasName := rfl
  constructor
  · intro h
    have htokens := Parallel.ofPart_lexemesOf (.refl config) hbehind halone haliases n 0
      (fun k _ => (hlabels k).symm)
      fun piece hmem token hkind => (hothers piece hmem token hkind).symm
    obtain ⟨second, halike, hsecond⟩ :=
      Parallel.readsQueries_follow htokens (hafter.proper _ _) h (endOf (textOf after) 0).span
    refine ⟨second, hsecond, ?_⟩
    rw [← map_whole Query.seen_whole queries]
    exact halike
  · rintro ⟨second, h, rfl⟩
    have htokens := Parallel.ofPart_lexemesOf (.refl config) halone hbehind haliases.symm 0 n
      (fun k _ => hlabels k) hothers
    obtain ⟨queries, halike, hqueries⟩ :=
      Parallel.readsQueries_follow htokens (hafter.proper _ _) h
        (endOf (textOf after) (byteLength before + 2)).span
    rw [← map_whole Query.seen_whole queries] at hqueries
    exact halike ▸ hqueries

/-- The batch of two texts with an end of line and a semicolon between them. -/
theorem Config.parseBatch_joined (hbefore : config.lexer.Cuts before)
    (hafter : config.lexer.Cuts after) :
    config.parseBatch (textOf before ++ '\n' :: ';' :: textOf after) = .ok queries ↔
      ∃ first second, config.parseBatch (textOf before) = .ok first ∧
        config.parseBatch (textOf after) = .ok second ∧
        queries = first ++ second.map (Query.seen (.renumbered (parametersOf before))) := by
  have hfront := (Source.HasAt.whole (textOf before ++ '\n' :: ';' :: textOf after)).left
  have halone := Source.HasAt.whole (textOf before)
  rw [parseBatch_iff_of_lexemes (Lexer.lexemes_joined hbefore hafter)]
  simp only [parseBatch_iff_of_lexemes (Lexer.lexemes_eq_ok.mpr ⟨before, hbefore, rfl, rfl⟩),
    parseBatch_iff_of_lexemes (Lexer.lexemes_eq_ok.mpr ⟨after, hafter, rfl, rfl⟩)]
  constructor
  · intro h
    have hend : ReadsQueries { config, source := textOf before } [endOf (textOf before) 0] [] :=
      readsQueries_eof.mpr rfl
    obtain ⟨first, behind, rfl, hbehind, hfirst⟩ := readsQueries_of_start (.refl config) hbefore
      hfront halone rfl rfl h hend
    rw [List.append_nil] at hfirst
    obtain ⟨second, hsecond, rfl⟩ :=
      (readsQueries_behind _ hafter _).mp ((readsQueries_semicolon _).mp hbehind)
    exact ⟨first, second, hfirst, hsecond, rfl⟩
  · rintro ⟨first, second, hfirst, hsecond, rfl⟩
    have hbehind := (readsQueries_behind (textOf before) hafter (parametersOf before)).mpr
      ⟨second, hsecond, rfl⟩
    have hmark := (readsQueries_semicolon
      ⟨byteLength (textOf before) + 1, byteLength (textOf before) + 2⟩).mpr hbehind
    obtain ⟨queries, last, rfl, hlast, hjoined⟩ := readsQueries_of_start (.refl config) hbefore
      halone hfront rfl rfl hfirst hmark
    rw [readsQueries_eof.mp hlast, List.append_nil]
    exact hjoined

end

/-- **The statements of a batch are independent.** Where two texts with their tokens are put behind
each other, with an end of line and a semicolon between them, the whole is accepted where both of
them are. Its queries are those of the first text and then those of the second one, in which the
numbers of placeholders go on where those of the first text end. -/
theorem parseWith_joined {config : Config} {a b : String} {lexemes more : List Lexeme}
    (ha : tokenize config.lexer a.toList = .ok lexemes)
    (hb : tokenize config.lexer b.toList = .ok more) (queries : List Query) :
    parseWith config (a ++ "\n;" ++ b) = .ok queries ↔
      ∃ first second, parseWith config a = .ok first ∧ parseWith config b = .ok second ∧
        queries = first ++ second.map
          (Query.seen (.renumbered (lexemes.countP (·.token.isNumbered)))) := by
  obtain ⟨before, hbefore, hsource, rfl⟩ := Lexer.lexemes_eq_ok.mp (mapError_eq_ok.mp ha)
  obtain ⟨after, hafter, hsource', -⟩ := Lexer.lexemes_eq_ok.mp (mapError_eq_ok.mp hb)
  have hcount : (lexemesOf 0 0 before ++ [endOf a.toList 0]).countP (·.token.isNumbered) =
      parametersOf before := by
    rw [List.countP_append, hbefore.countP_isNumbered]
    rfl
  have hjoined : (a ++ "\n;" ++ b).toList = textOf before ++ '\n' :: ';' :: textOf after := by
    rw [String.toList_append, String.toList_append, hsource, hsource', List.append_assoc]
    rfl
  rw [hcount]
  simp only [parseWith_eq_ok, hjoined, ← hsource, ← hsource',
    Config.parseBatch_joined hbefore hafter]
  constructor
  · rintro ⟨hvalid, first, second, hfirst, hsecond, rfl⟩
    exact ⟨first, second, ⟨hvalid, hfirst⟩, ⟨hvalid, hsecond⟩, rfl⟩
  · rintro ⟨first, second, ⟨hvalid, hfirst⟩, ⟨-, hsecond⟩, rfl⟩
    exact ⟨hvalid, first, second, hfirst, hsecond, rfl⟩

/-- The first text ends in a comment, and has a placeholder as the second one does. -/
theorem parseWith_joined_of_comment :
    let config := Config.ofDialect .mysql
    let front := ['D', 'E', 'L', 'E', 'T', 'E', ' ', 't', ' ', 'W', 'H', 'E', 'R', 'E', ' ',
      'a', '=', '?', '-', '-']
    let behind := ['S', 'E', 'L', 'E', 'C', 'T', ' ', '?']
    ∃ first second, parseWith config (String.ofList front) = .ok first ∧
      parseWith config (String.ofList behind) = .ok second ∧
      parseWith config (String.ofList front ++ "\n;" ++ String.ofList behind) =
        .ok (first ++ second.map (Query.seen (.renumbered 1))) := by
  intro config front behind
  have hfront : ∃ lexemes, tokenize config.lexer front = .ok lexemes ∧
      lexemes.countP (·.token.isNumbered) = 1 := ⟨_, rfl, rfl⟩
  have hbehind : ∃ more, tokenize config.lexer behind = .ok more := ⟨_, rfl⟩
  obtain ⟨lexemes, hlexemes, hcount⟩ := hfront
  obtain ⟨more, hmore⟩ := hbehind
  obtain ⟨first, hfirst⟩ : ∃ first, config.parseBatch front = .ok first := ⟨_, rfl⟩
  obtain ⟨second, hsecond⟩ : ∃ second, config.parseBatch behind = .ok second := ⟨_, rfl⟩
  have ha : tokenize config.lexer (String.ofList front).toList = .ok lexemes := by
    rwa [String.toList_ofList]
  have hb : tokenize config.lexer (String.ofList behind).toList = .ok more := by
    rwa [String.toList_ofList]
  have hfirst := parseWith_ofList rfl hfirst
  have hsecond := parseWith_ofList rfl hsecond
  refine ⟨first, second, hfirst, hsecond, ?_⟩
  exact (parseWith_joined ha hb _).mpr ⟨first, second, hfirst, hsecond, by rw [hcount]⟩

end SqlFront
