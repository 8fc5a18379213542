import SqlFront.Dialect
import SqlFront.Fault
import SqlFront.Text.Digits

/-!
The lexer: it cuts a text into pieces, each of them a token or a gap of blanks and comments.

A piece is found by looking at the text from one place on. It always takes at least one
character, and the pieces follow each other without anything between them.
-/

namespace SqlFront

/-- What decides how a text is cut: the dialect, and whether backslashes escape characters in
ordinary strings. -/
structure Lexer where
  dialect : Dialect
  backslashEscapes : Bool
  deriving DecidableEq, Repr

/-- The lexer of a dialect with its own rule on backslashes. -/
def Lexer.ofDialect (dialect : Dialect) : Lexer :=
  ⟨dialect, dialect.backslashEscapes⟩

/-! ### Characters -/

/-- The characters between tokens. -/
def isBlank (c : Char) : Bool :=
  c = ' ' || c = '\t' || c = '\n' || c = '\x0c' || c = '\r'

/-- The characters that can start a name; all those outside ASCII can. -/
def isNameStart (c : Char) : Bool :=
  c.isAlpha || c = '_' || c.toNat ≥ 128

/-- The characters that can continue a name. -/
def isNameChar (c : Char) : Bool :=
  c.isAlphanum || c = '_' || c = '$' || c.toNat ≥ 128

/-- The first byte of a character in UTF-8, shown as the character of that number. -/
def leadingByte (c : Char) : Char :=
  match String.utf8EncodeChar c with
  | byte :: _ => Char.ofNat byte.toNat
  | [] => c

/-! ### Pieces -/

/-- What a piece of the text is. -/
inductive PieceKind where
  /-- Blanks or a comment. -/
  | gap
  | token (token : Token)
  /-- A placeholder without a label of its own; it is numbered by the place it has among its
  like. -/
  | parameter
  deriving DecidableEq

/-- A piece of the text: its characters and what they are. -/
structure Piece where
  text : List Char
  kind : PieceKind
  deriving DecidableEq

/-- Why there is no piece, and how many characters before the fault are in order. They are all
ASCII, so they are as many bytes. -/
abbrev Misfit := SyntaxCause × Nat

/-- A line up to and with the end of line. -/
def lineText : List Char → List Char
  | [] => []
  | c :: cs => if c = '\n' then [c] else c :: lineText cs

/-- The rest of a block comment up to and with its end. -/
def blockText : List Char → Option (List Char)
  | '*' :: '/' :: _ => some ['*', '/']
  | c :: cs => (blockText cs).map (c :: ·)
  | [] => none

/-- The body of a string whose opening quote has been passed, up to the closing quote. A doubled
quote stands inside the body, and so does any character after a backslash that escapes. -/
def stringBody (quote : Char) (escapes : Bool) : List Char → Option (List Char)
  | [] => none
  | c :: cs =>
      if escapes && c = '\\' then
        match cs with
        | [] => none
        | d :: rest => (stringBody quote escapes rest).map (c :: d :: ·)
      else if c = quote then
        match cs with
        | [] => some []
        | d :: rest =>
            if d = quote then (stringBody quote escapes rest).map (c :: d :: ·) else some []
      else (stringBody quote escapes cs).map (c :: ·)

/-- The string at an opening quote, after the letters `lead` that mark its kind. -/
def stringPiece (lead : List Char) (kind : StringKind) (escapes : Bool) (rest : List Char) :
    Except Misfit Piece :=
  match stringBody kind.quote escapes rest with
  | some body =>
      .ok ⟨lead ++ kind.quote :: body ++ [kind.quote], .token (.string (String.ofList body) kind)⟩
  | none => .error (.unterminatedString, lead.length)

/-- A name whose opening delimiter has been passed: the name, and its text up to and with the
closing delimiter. A doubled closing delimiter stands for itself. -/
def quotedName (close : Char) : List Char → Option (List Char × List Char)
  | [] => none
  | c :: cs =>
      if c = close then
        match cs with
        | [] => some ([], [c])
        | d :: rest =>
            if d = close then
              (quotedName close rest).map fun (name, text) => (c :: name, c :: d :: text)
            else some ([], [c])
      else (quotedName close cs).map fun (name, text) => (c :: name, c :: text)

/-- The quoted name after the delimiter `first`. -/
def quotedNamePiece (first close : Char) (rest : List Char) : Except Misfit Piece :=
  match quotedName close rest with
  | some ([], _) => .error (.emptyName, 0)
  | some (name, text) => .ok ⟨first :: text, .token (.quotedName (String.ofList name))⟩
  | none => .error (.unterminatedName, 0)

/-- The hexadecimal string after its letter and its opening quote. -/
def hexStringPiece (letter : Char) (rest : List Char) : Except Misfit Piece :=
  let digits := rest.takeWhile isHexDigit
  match rest.dropWhile isHexDigit with
  | [] => .error (.unterminatedHexString, 0)
  | c :: _ =>
      if c = '\'' then
        .ok ⟨letter :: '\'' :: digits ++ ['\''], .token (.hexString (String.ofList digits))⟩
      else .error (.notHexDigit (leadingByte c), digits.length + 2)

/-- The hexadecimal number after its two leading characters. -/
def hexNumberPiece (zero letter : Char) (rest : List Char) : Except Misfit Piece :=
  let digits := rest.takeWhile isHexDigit
  let follower := (rest.dropWhile isHexDigit).head?
  if digits.isEmpty || follower.any isNameChar then .error (.invalidHexNumber, 0)
  else .ok ⟨zero :: letter :: digits, .token (.hexNumber (String.ofList digits))⟩

/-- A point and the digits after it, where the text goes on with a point. -/
def fractionText : List Char → List Char
  | '.' :: rest => '.' :: rest.takeWhile Char.isDigit
  | _ => []

/-- A sign, where the text goes on with one. -/
def signText : List Char → List Char
  | '+' :: _ => ['+']
  | '-' :: _ => ['-']
  | _ => []

/-- An exponent with its letter, where the text goes on with that letter; `none` when no digit
follows. -/
def exponentText : List Char → Option (List Char)
  | [] => some []
  | c :: cs =>
      if c = 'e' || c = 'E' then
        let sign := signText cs
        let digits := (cs.drop sign.length).takeWhile Char.isDigit
        if digits.isEmpty then none else some (c :: sign ++ digits)
      else some []

/-- The number at the start of a text: digits, a fraction and an exponent. -/
def numberPiece (input : List Char) : Except Misfit Piece :=
  let whole := input.takeWhile Char.isDigit
  let mantissa := whole ++ fractionText (input.drop whole.length)
  match exponentText (input.drop mantissa.length) with
  | some exponent =>
      .ok ⟨mantissa ++ exponent, .token (.number (String.ofList (mantissa ++ exponent)))⟩
  | none => .error (.missingExponent, mantissa.length)

/-- The labelled placeholder after the character `mark`. -/
def placeholderPiece (mark : Char) (inLabel : Char → Bool) (missing : SyntaxCause)
    (rest : List Char) : Except Misfit Piece :=
  let label := rest.takeWhile inLabel
  if label.isEmpty then .error (missing, 0)
  else .ok ⟨mark :: label, .token (.placeholder (String.ofList (mark :: label)))⟩

/-- The word at the start of a text: a reserved word or a name. -/
def wordPiece (input : List Char) : Piece :=
  let text := input.takeWhile isNameChar
  match Keyword.ofWord? (String.ofList text) with
  | some keyword => ⟨text, .token (.keyword keyword)⟩
  | none => ⟨text, .token (.name (String.ofList text))⟩

/-- The symbol of two characters. -/
def symbolOfPair? (c d : Char) : Option Symbol :=
  match c, d with
  | '!', '=' => some .notEqual
  | '<', '>' => some .notEqual
  | '<', '=' => some .lessEqual
  | '>', '=' => some .greaterEqual
  | _, _ => none

/-- The symbol of one character. -/
def symbolOfChar? : Char → Option Symbol
  | '+' => some .plus
  | '-' => some .minus
  | '*' => some .star
  | '/' => some .slash
  | '%' => some .percent
  | '^' => some .caret
  | '&' => some .ampersand
  | '|' => some .pipe
  | '(' => some .leftParen
  | ')' => some .rightParen
  | ',' => some .comma
  | ';' => some .semicolon
  | '.' => some .dot
  | '=' => some .equal
  | '<' => some .less
  | '>' => some .greater
  | _ => none

/-- The operator or punctuation that starts with `c`, the longer one where two fit. -/
def symbolPiece (c : Char) (rest : List Char) : Except Misfit Piece :=
  match rest.head?.bind fun d => (symbolOfPair? c d).map ([c, d], ·) with
  | some (text, symbol) => .ok ⟨text, .token (.symbol symbol)⟩
  | none =>
      match symbolOfChar? c with
      | some symbol => .ok ⟨[c], .token (.symbol symbol)⟩
      | none => .error (.unexpectedCharacter c, 0)

namespace Lexer

/-- The blanks or the comment at the start of a text, if it starts so. -/
def gap? (lexer : Lexer) (c : Char) (rest : List Char) : Option (Except Misfit (List Char)) :=
  let next := rest.head?
  if isBlank c then some (.ok (c :: rest.takeWhile isBlank))
  else if (c = '-' && next = some '-') || (c = '#' && lexer.dialect.hashComments) then
    some (.ok (lineText (c :: rest)))
  else if c = '/' && next = some '*' then
    match blockText (rest.drop 1) with
    | some text => some (.ok (c :: '*' :: text))
    | none => some (.error (.unterminatedComment, 0))
  else none

/-- The token at the start of a text. The letters that mark a literal only do so directly before
its quote, and in the dialects that have the literal; else they start a word. -/
def tokenPiece (lexer : Lexer) (c : Char) (rest : List Char) : Except Misfit Piece :=
  let d := lexer.dialect
  let quoteNext := rest.head? = some '\''
  if c = '\'' then stringPiece [] .single lexer.backslashEscapes rest
  else if c = '"' then
    if d.doubleQuotedStrings then stringPiece [] .double lexer.backslashEscapes rest
    else quotedNamePiece c '"' rest
  else if c = '[' && d.bracketNames then quotedNamePiece c ']' rest
  else if c = '`' && d.backtickNames then quotedNamePiece c '`' rest
  else if (c = 'N' || c = 'n') && quoteNext && d.nationalStrings then
    stringPiece [c] .national lexer.backslashEscapes (rest.drop 1)
  else if (c = 'E' || c = 'e') && quoteNext && d.escapeStrings then
    stringPiece [c] .escaped true (rest.drop 1)
  else if (c = 'X' || c = 'x') && quoteNext && d.hexStrings then
    hexStringPiece c (rest.drop 1)
  else if c = '0' && (rest.head? = some 'x' || rest.head? = some 'X') && d.hexNumbers then
    hexNumberPiece c (rest.head?.getD 'x') (rest.drop 1)
  else if c.isDigit || (c = '.' && rest.head?.any Char.isDigit) then numberPiece (c :: rest)
  else if c = '?' then .ok ⟨[c], .parameter⟩
  else if c = '$' && d.dollarPlaceholders then
    placeholderPiece c Char.isDigit .missingParameterNumber rest
  else if c = '@' && d.namedPlaceholders then
    placeholderPiece c isNameChar .missingParameterName rest
  else if isNameStart c then .ok (wordPiece (c :: rest))
  else symbolPiece c rest

/-- The first piece of the text that starts with `c`. -/
def piece (lexer : Lexer) (c : Char) (rest : List Char) : Except Misfit Piece :=
  match lexer.gap? c rest with
  | some text => text.map (⟨·, .gap⟩)
  | none => lexer.tokenPiece c rest

/-- The tokens of a text that starts at byte `offset`, after `parameters` placeholders without a
label. The first `passed` characters belong to a piece that has been read already. -/
def lexemesFrom (lexer : Lexer) (parameters offset passed : Nat) :
    List Char → Except Fault (List Lexeme)
  | [] => .ok [⟨.eof, ⟨offset, offset⟩⟩]
  | c :: cs =>
      match passed with
      | n + 1 => lexemesFrom lexer parameters (offset + c.utf8Size) n cs
      | 0 =>
          match lexer.piece c cs with
          | .error (cause, before) => .error ⟨cause, some (offset + before)⟩
          | .ok ⟨text, kind⟩ =>
              let span := ⟨offset, offset + byteLength text⟩
              match kind with
              | .gap =>
                  lexemesFrom lexer parameters (offset + c.utf8Size) (text.length - 1) cs
              | .token token => do
                  let lexemes ←
                    lexemesFrom lexer parameters (offset + c.utf8Size) (text.length - 1) cs
                  return ⟨token, span⟩ :: lexemes
              | .parameter => do
                  let label := "?" ++ toString (parameters + 1)
                  let lexemes ←
                    lexemesFrom lexer (parameters + 1) (offset + c.utf8Size) (text.length - 1) cs
                  return ⟨.placeholder label, span⟩ :: lexemes

/-- The tokens of a text; the last of them, and no other, is the end of the text. -/
def lexemes (lexer : Lexer) (source : Source) : Except Fault (List Lexeme) :=
  lexer.lexemesFrom 0 0 0 source

end Lexer

end SqlFront
