import SqlFront.Proofs.MisreadTokens
import SqlFront.Proofs.ParserBatch
import SqlFront.Proofs.Reading

/-!
The places that failures of reading point to.

The grammar takes tokens off the front and never gives one back, and it fails at the first one that
is left. So a fault of the grammar is at the start of a token, or at the end of the text; a fault of
the tokens is in a token or a comment that cannot be read. Either way it is at a character of the
text or at its end, and the line and the column that it is reported with are those of no other place
of the text.
-/

namespace SqlFront

namespace Grammar

/-! ### The grammar fails at a token -/

/-- The fault is at the first token of those that are left, or behind all of them. -/
def FaultIn (input : List Lexeme) (fault : Fault) : Prop :=
  ∃ rest cause, rest <:+ input ∧ fault = faultAt rest cause

theorem FaultIn.of_suffix {rest input : List Lexeme} {fault : Fault} (h : FaultIn rest fault)
    (hsuffix : rest <:+ input) : FaultIn input fault := by
  obtain ⟨left, cause, hleft, hfault⟩ := h
  exact ⟨left, cause, hleft.trans hsuffix, hfault⟩

/-- A reader fails at a token of its input, or behind it. -/
def FailsWithin (reader : Reader) : Prop :=
  ∀ {input fault}, reader input = .error fault → FaultIn input fault

theorem isSuffix_of_keeps {reader : Reader} (hkeeps : Keeps reader) {input rest : List Lexeme}
    {trees : List Tree} (hread : reader input = .ok (trees, rest)) : rest <:+ input :=
  ⟨Tree.terminalsOf trees, hkeeps hread⟩

theorem readToken_failsWithin (accepts : Token → Bool) (wanted : String) :
    FailsWithin (readToken accepts wanted) := by
  intro input fault h
  cases input with
  | nil =>
    cases h
    exact ⟨_, _, List.suffix_rfl, rfl⟩
  | cons lexeme input =>
    rcases ite_eq_iff.mp h with ⟨-, h⟩ | ⟨-, h⟩
    · cases h
    · cases h
      exact ⟨_, _, List.suffix_rfl, rfl⟩

theorem readWhile_failsWithin {look : Lookahead} {body : Reader} (hkeeps : Keeps body)
    (hbody : FailsWithin body) (times : Nat) : FailsWithin (readWhile look body times) := by
  induction times with
  | zero =>
    intro input fault h
    cases h
  | succ times ih =>
    intro input fault h
    rw [readWhile] at h
    split at h
    · rcases bind_eq_error.mp h with h | ⟨⟨trees, mid⟩, hround, h⟩
      · exact hbody h
      · rcases bind_eq_error.mp h with h | ⟨_, -, h⟩
        · exact (ih h).of_suffix (isSuffix_of_keeps hkeeps hround)
        · cases h
    · cases h

section

variable {enter : Construct → Reader}

/-- **A form fails at a token of its input**, when the constructs inside do. -/
theorem read_failsWithin (hkeeps : ∀ construct, Keeps (enter construct))
    (henter : ∀ construct, FailsWithin (enter construct)) (form : Form) :
    FailsWithin (form.read enter) := by
  induction form with
  | empty =>
    intro input fault h
    cases h
  | token accepts wanted => exact readToken_failsWithin accepts wanted
  | refuse cause =>
    intro input fault h
    cases h
    exact ⟨_, _, List.suffix_rfl, rfl⟩
  | seq first second ihfirst ihsecond =>
    intro input fault h
    rcases bind_eq_error.mp h with h | ⟨⟨left, mid⟩, hleft, h⟩
    · exact ihfirst h
    · rcases bind_eq_error.mp h with h | ⟨_, -, h⟩
      · exact (ihsecond h).of_suffix (isSuffix_of_keeps (read_keeps hkeeps first) hleft)
      · cases h
  | ifAt look yes no ihyes ihno =>
    intro input fault h
    rcases ite_eq_iff.mp h with ⟨-, h⟩ | ⟨-, h⟩
    · exact ihyes h
    · exact ihno h
  | whileAt look body ih => exact readWhile_failsWithin (read_keeps hkeeps body) ih _
  | extend first rule more ihfirst ihmore =>
    intro input fault h
    rcases bind_eq_error.mp h with h | ⟨⟨left, mid⟩, hleft, h⟩
    · exact ihfirst h
    · dsimp only at h
      split at h
      · cases h
      · rcases bind_eq_error.mp h with h | ⟨_, -, h⟩
        · exact (ihmore h).of_suffix (isSuffix_of_keeps (read_keeps hkeeps first) hleft)
        · cases h
  | deeper construct => exact henter construct

end

theorem enter_failsWithin (bodies : Construct → Form) (limit left : Nat) (construct : Construct) :
    FailsWithin (enter bodies limit left construct) := by
  induction left generalizing construct with
  | zero =>
    intro input fault h
    cases h
    exact ⟨_, _, List.suffix_rfl, rfl⟩
  | succ left ih => exact read_failsWithin (enter_keeps bodies limit left) ih (bodies construct)

variable {dialect : Dialect} {levels : Nat} {input : List Lexeme} {fault : Fault}

theorem readForm_failsWithin (form : Form) : FailsWithin (readForm dialect levels form) :=
  read_failsWithin (enter_keeps (bodies dialect) levels levels)
    (enter_failsWithin (bodies dialect) levels levels) form

theorem faultIn_of_readBatch (h : readBatch dialect levels input = .error fault) :
    FaultIn input fault := by
  rw [readBatch_eq, map_eq_error] at h
  exact readForm_failsWithin _ h

theorem faultIn_of_readExpression (h : readExpression dialect levels input = .error fault) :
    FaultIn input fault := by
  have hread : readForm dialect levels expression input = .error fault := by
    rw [readForm_expression, h]
    rfl
  exact readForm_failsWithin _ hread

end Grammar

/-! ### The places of faults in the text -/

namespace Lexer

variable {lexer : Lexer} {source : Source} {offset : Nat}

/-- A token of the text starts at this place, or the text ends there. -/
def TokenAt (lexer : Lexer) (source : Source) (offset : Nat) : Prop :=
  ∃ lexemes lexeme, lexer.lexemes source = .ok lexemes ∧ lexeme ∈ lexemes ∧
    offset = lexeme.span.start ∧ (lexeme.WrittenIn source ∨ lexeme = endOf source 0)

theorem TokenAt.isBoundary (h : lexer.TokenAt source offset) : source.IsBoundary offset := by
  obtain ⟨lexemes, lexeme, -, -, rfl, ⟨text, hcovers, -⟩ | rfl⟩ := h
  · exact hcovers.boundaries.1
  · exact ⟨source, [], (List.append_nil _).symm, Nat.zero_add _⟩

/-- A fault of the grammar is at the start of a token. -/
theorem tokenAt_of_faultIn {lexemes : List Lexeme} {fault : Fault}
    (hlexemes : lexer.lexemes source = .ok lexemes) (h : Grammar.FaultIn lexemes fault) :
    lexer.TokenAt source (fault.offset.getD (byteLength source)) := by
  obtain ⟨rest, cause, hsuffix, rfl⟩ := h
  obtain ⟨pieces, hcuts, rfl, hall⟩ := lexemes_eq_ok.mp hlexemes
  have hwritten : ∀ lexeme ∈ lexemes,
      lexeme.WrittenIn (Piece.textOf pieces) ∨ lexeme = endOf (Piece.textOf pieces) 0 := by
    intro lexeme hmem
    rw [hall] at hmem
    rcases List.mem_append.mp hmem with hmem | hmem
    · exact .inl (hcuts.writtenIn lexeme hmem)
    · exact .inr (List.mem_singleton.mp hmem)
  cases rest with
  | nil =>
    exact ⟨lexemes, endOf (Piece.textOf pieces) 0, hlexemes, by simp [hall], (Nat.zero_add _).symm,
      .inr rfl⟩
  | cons lexeme rest =>
    have hmem : lexeme ∈ lexemes := hsuffix.subset List.mem_cons_self
    exact ⟨lexemes, lexeme, hlexemes, hmem, rfl, hwritten lexeme hmem⟩

/-- Where the reading of a text ends: in a token or a comment that cannot be read, or at the start
of a token or the end of the text. -/
def HaltsAt (lexer : Lexer) (source : Source) (cause : SyntaxCause) (offset : Nat) : Prop :=
  lexer.MisreadAt source cause offset ∨ lexer.TokenAt source offset

theorem HaltsAt.isBoundary {cause : SyntaxCause} (h : lexer.HaltsAt source cause offset) :
    source.IsBoundary offset :=
  h.elim MisreadAt.isBoundary TokenAt.isBoundary

/-- A reading of the tokens of a text fails for want of these, or at one of them. -/
theorem haltsAt_of_reading {α : Type} {read : List Lexeme → Except Fault α} {fault : Fault}
    (hread : ∀ {lexemes fault}, read lexemes = .error fault → Grammar.FaultIn lexemes fault)
    (h : lexer.lexemes source >>= read = .error fault) :
    lexer.HaltsAt source fault.cause (fault.offset.getD (byteLength source)) := by
  rcases bind_eq_error.mp h with hlexemes | ⟨lexemes, hlexemes, hfails⟩
  · obtain ⟨cause, offset, hmisread, rfl⟩ := lexemes_eq_error.mp hlexemes
    exact .inl hmisread
  · exact .inr (tokenAt_of_faultIn hlexemes (hread hfails))

end Lexer

/-- The failure is reported at the line and the column of this place, which is one between the
characters of the text, and the only one with this line and this column. -/
structure Failure.PointsTo (failure : Failure) (source : Source) (cause : SyntaxCause)
    (offset : Nat) : Prop where
  reported : failure = .unreadable cause (source.position offset)
  boundary : source.IsBoundary offset
  inside : offset ≤ byteLength source
  only : ∀ other, source.IsBoundary other → source.position other = source.position offset →
    other = offset

theorem Source.IsBoundary.pointsTo {source : Source} {offset : Nat}
    (h : source.IsBoundary offset) (cause : SyntaxCause) :
    Failure.PointsTo (.unreadable cause (source.position offset)) source cause offset where
  reported := rfl
  boundary := h
  inside := h.le
  only _ hother hsame := h.eq_of_position hother hsame

/-- **What cannot be read is reported at its exact place.** A text has no tokens exactly when one of
them or a comment cannot be read, and is reported at the place in that; a text that the grammar does
not take is reported at the start of a token or at the end of the text. The place is a character
boundary of the text, and its line and column tell it: lines are counted by the ends of line in
front of it and columns by the characters after the last of these, so that positions are in the
order of places. -/
theorem failures_placed :
    (∀ (lexer : Lexer) (source : Source) (failure : Failure),
      tokenize lexer source = .error failure ↔
        ∃ cause offset, lexer.MisreadAt source cause offset ∧
          failure.PointsTo source cause offset) ∧
    (∀ (config : Config) (source : Source) (error : Error),
      config.parseTree source = .error error →
        config.parseBatch source = .error error ∧
        ∃ failure cause offset, error = .parseFailed failure ∧
          config.lexer.HaltsAt source cause offset ∧ failure.PointsTo source cause offset) ∧
    (∀ (config : Config) (source : Source) (failure : Failure),
      config.expressionTree source = .error failure →
        config.parseExpression source = .error failure ∧
        ∃ cause offset, config.lexer.HaltsAt source cause offset ∧
          failure.PointsTo source cause offset) ∧
    (∀ (source : Source) (offset other : Nat), source.IsBoundary offset →
      source.IsBoundary other → offset < other →
        (source.position offset).Before (source.position other)) ∧
    ∀ before after : List Char, Source.position (before ++ after) (byteLength before) =
      ⟨before.count '\n' + 1, (before.reverse.takeWhile (· ≠ '\n')).length + 1⟩ := by
  refine ⟨?tokens, ?batch, ?expression, ?order, ?position⟩
  case tokens =>
    intro lexer source failure
    constructor
    · intro h
      obtain ⟨fault, hfault, rfl⟩ := mapError_eq_error.mp h
      obtain ⟨cause, offset, hmisread, rfl⟩ := Lexer.lexemes_eq_error.mp hfault
      exact ⟨cause, offset, hmisread, hmisread.isBoundary.pointsTo cause⟩
    · rintro ⟨cause, offset, hmisread, hpoints⟩
      have hfault := Lexer.lexemes_eq_error.mpr ⟨cause, offset, hmisread, rfl⟩
      exact mapError_eq_error.mpr ⟨_, hfault, hpoints.reported.symm⟩
  case batch =>
    intro config source error h
    obtain ⟨fault, hfault, rfl⟩ := mapError_eq_error.mp h
    have hhalts := Lexer.haltsAt_of_reading Grammar.faultIn_of_readBatch hfault
    exact ⟨bind_eq_error.mpr (.inl h), fault.failure source, fault.cause, _, rfl, hhalts,
      hhalts.isBoundary.pointsTo fault.cause⟩
  case expression =>
    intro config source failure h
    obtain ⟨fault, hfault, rfl⟩ := mapError_eq_error.mp h
    have hhalts : config.lexer.HaltsAt source fault.cause
        (fault.offset.getD (byteLength source)) := by
      refine Lexer.haltsAt_of_reading (fun hfails => ?_) hfault
      rcases bind_eq_error.mp hfails with hread | ⟨_, -, hdone⟩
      · exact Grammar.faultIn_of_readExpression hread
      · cases hdone
    exact ⟨bind_eq_error.mpr (.inl h), fault.cause, _, hhalts,
      hhalts.isBoundary.pointsTo fault.cause⟩
  case order =>
    intro source offset other h hother hlt
    exact h.position_before hother hlt
  case position =>
    intro before after
    rw [Source.position_of_append, Position.advance_start]

/-- A character of two bytes stands among hexadecimal digits, and another one on the line in front
of these; a word of the grammar stands where a value belongs; a bracket is open at the end of the
text. -/
theorem failures_placed_of_lines :
    let digits := ['ü', '\n', 'X', '\'', '0', 'é', '\'']
    let select := ['S', 'E', 'L', 'E', 'C', 'T', '\n', ' ', 'F', 'R', 'O', 'M']
    let bracket := ['(', '1', '\n']
    let found : Failure := .unreadable (.notHexDigit 'Ã') ⟨2, 4⟩
    let wanted : Failure :=
      .unreadable (.unexpectedToken "an expression" (.keyword .FROM)) ⟨2, 2⟩
    let closing : Failure := .unreadable (.unexpectedToken "')'" .eof) ⟨2, 1⟩
    (∃ cause offset, (Lexer.ofDialect .mysql).MisreadAt digits cause offset ∧
      found.PointsTo digits cause offset) ∧
    ((Config.ofDialect .mysql).parseBatch select = .error (.parseFailed wanted) ∧
      ∃ failure cause offset, Error.parseFailed wanted = .parseFailed failure ∧
        (Lexer.ofDialect .mysql).HaltsAt select cause offset ∧
        failure.PointsTo select cause offset) ∧
    ((Config.ofDialect .mysql).parseExpression bracket = .error closing ∧
      ∃ cause offset, (Lexer.ofDialect .mysql).HaltsAt bracket cause offset ∧
        closing.PointsTo bracket cause offset) ∧
    (Source.position digits 6).Before (Source.position digits 8) := by
  intro digits select bracket found wanted closing
  obtain ⟨tokens, batch, expression, order, -⟩ := failures_placed
  refine ⟨(tokens _ digits found).mp rfl,
    batch (.ofDialect .mysql) select (.parseFailed wanted) rfl,
    expression (.ofDialect .mysql) bracket closing rfl, ?_⟩
  have before : Source.IsBoundary digits 6 := ⟨['ü', '\n', 'X', '\'', '0'], ['é', '\''], rfl, rfl⟩
  have after : Source.IsBoundary digits 8 := ⟨['ü', '\n', 'X', '\'', '0', 'é'], ['\''], rfl, rfl⟩
  exact order digits 6 8 before after (by decide)

end SqlFront
