import SqlFront.Parse
import SqlFront.Proofs.Cutting
import SqlFront.Proofs.Spelling

/-!
Any name can be written in quotes and is read back.

A name is written between two delimiters with every closing one in it doubled. The lexer takes the
pairs back and stops at the first closing delimiter that is alone, which is the last character: so
the written form has one token, and no other name is written in the same way.
-/

namespace SqlFront

/-- The ways to quote a name. -/
inductive NameQuotes where
  | brackets
  | backticks
  | doubleQuotes
  deriving DecidableEq, Repr

namespace NameQuotes

/-- The delimiter in front of the name. -/
def first : NameQuotes → Char
  | brackets => '['
  | backticks => '`'
  | doubleQuotes => '"'

/-- The delimiter after the name. -/
def close : NameQuotes → Char
  | brackets => ']'
  | backticks => '`'
  | doubleQuotes => '"'

/-- A name as it is written in quotes. -/
def written (quotes : NameQuotes) (name : List Char) : List Char :=
  quotes.first :: (doubled quotes.close name ++ [quotes.close])

theorem first_injective : Function.Injective first := by
  intro quotes other h
  cases quotes <;> cases other <;> first | rfl | cases h

end NameQuotes

/-- The quotes that a dialect has for names. -/
def Dialect.nameQuotes : Dialect → List NameQuotes
  | .mssql => [.brackets, .doubleQuotes]
  | .mysql => [.backticks]
  | .postgres => [.doubleQuotes]

/-! ### Between the delimiters -/

theorem doubled_cons (close c : Char) (name : List Char) :
    doubled close (c :: name) =
      (if c = close then [c, c] else [c]) ++ doubled close name :=
  List.flatMap_cons

/-- A name with its closing delimiters doubled is read up to the delimiter that is alone, and the
doubling is taken back. -/
theorem quotedName_doubled (close : Char) (name : List Char) :
    quotedName close (doubled close name ++ [close]) =
      some (name, doubled close name ++ [close]) := by
  induction name with
  | nil => simp [doubled, quotedName]
  | cons c name ih =>
    rw [doubled_cons]
    by_cases hc : c = close
    · subst hc
      simp [quotedName, ih]
    · rw [if_neg hc, List.singleton_append, List.cons_append, quotedName.eq_def]
      simp [hc, ih]

/-- Names that are written in the same way are the same, and in the same quotes. -/
theorem NameQuotes.written_inj {quotes other : NameQuotes} {name name' : List Char}
    (h : quotes.written name = other.written name') : quotes = other ∧ name = name' := by
  obtain ⟨hfirst, hrest⟩ := List.cons.inj h
  obtain rfl := NameQuotes.first_injective hfirst
  have hread := quotedName_doubled quotes.close name
  rw [hrest, quotedName_doubled] at hread
  exact ⟨rfl, (Prod.mk.inj (Option.some.inj hread)).1.symm⟩

theorem quotedNamePiece_written (quotes : NameQuotes) {name : List Char} (hne : name ≠ []) :
    quotedNamePiece quotes.first quotes.close (doubled quotes.close name ++ [quotes.close]) =
      .ok ⟨quotes.written name, .token (.quotedName (String.ofList name))⟩ := by
  obtain ⟨c, cs, rfl⟩ := List.exists_cons_of_ne_nil hne
  rw [quotedNamePiece, quotedName_doubled]
  rfl

/-! ### Quoted names -/

namespace Lexer

variable (lexer : Lexer)

/-- The opening delimiter starts a quoted name in the dialects that have these quotes. -/
theorem piece_of_nameQuotes {quotes : NameQuotes} (has : quotes ∈ lexer.dialect.nameQuotes)
    (rest : List Char) :
    lexer.piece quotes.first rest = quotedNamePiece quotes.first quotes.close rest := by
  cases hdialect : lexer.dialect <;> rw [hdialect] at has <;>
    simp only [Dialect.nameQuotes, List.mem_cons, List.not_mem_nil, or_false] at has
  case mssql =>
    obtain rfl | rfl := has
    all_goals simp [Lexer.piece, gap?, isBlank, tokenPiece, NameQuotes.first, NameQuotes.close,
      hdialect, Dialect.bracketNames, Dialect.doubleQuotedStrings]
  all_goals
    obtain rfl := has
    simp [Lexer.piece, gap?, isBlank, tokenPiece, NameQuotes.first, NameQuotes.close, hdialect,
      Dialect.backtickNames, Dialect.doubleQuotedStrings]

theorem cuts_written {quotes : NameQuotes} (has : quotes ∈ lexer.dialect.nameQuotes)
    {name : List Char} (hne : name ≠ []) :
    lexer.Cuts [⟨quotes.written name, .token (.quotedName (String.ofList name))⟩] := by
  refine .cons ?_ .nil
  rw [Piece.textOf_nil, List.append_nil, lexer.piece_of_nameQuotes has,
    quotedNamePiece_written quotes hne, NameQuotes.written]

end Lexer

/-- **Every name comes back from its quotes.** Whatever quotes a dialect has, a name that is not
empty and is written in them, with its closing delimiters doubled, is one token that carries the
name, with the end of the text behind it. No other name is written so, in these quotes or in
others. -/
theorem quotedName_roundTrip (lexer : Lexer) {quotes : NameQuotes}
    (has : quotes ∈ lexer.dialect.nameQuotes) {name : String} (hne : name ≠ "") :
    let source := quotes.written name.toList
    let stop := byteLength source
    tokenize lexer source =
        .ok [⟨.quotedName name, ⟨0, stop⟩⟩, ⟨.eof, ⟨stop, stop⟩⟩] ∧
      ∀ (other : NameQuotes) (name' : String), other.written name'.toList = source →
        other = quotes ∧ name' = name := by
  intro source stop
  constructor
  · have cut := lexer.cuts_written has (mt String.toList_eq_nil_iff.mp hne)
    rw [String.ofList_toList] at cut
    rw [tokenize, mapError_eq_ok, Lexer.lexemes_of_cuts cut, endOf, Nat.zero_add]
  · intro other name' same
    obtain ⟨rfl, hname⟩ := NameQuotes.written_inj same
    exact ⟨rfl, String.toList_inj.mp hname⟩

/-- The name `]--é]`, which starts and ends with the delimiter that closes it and looks like the
start of a comment, comes back from brackets. -/
theorem quotedName_roundTrip_of_delimiters :
    let source := NameQuotes.brackets.written "]--é]".toList
    "]--é]" ≠ "" ∧ source = ['[', ']', ']', '-', '-', 'é', ']', ']', ']'] ∧
      tokenize (Lexer.ofDialect .mssql) source =
        .ok [⟨.quotedName "]--é]", ⟨0, 10⟩⟩, ⟨.eof, ⟨10, 10⟩⟩] := by
  intro source
  have ne : "]--é]" ≠ "" := by decide
  have has : NameQuotes.brackets ∈ (Lexer.ofDialect .mssql).dialect.nameQuotes := .head _
  exact ⟨ne, by decide, (quotedName_roundTrip (Lexer.ofDialect .mssql) has ne).1⟩

end SqlFront
