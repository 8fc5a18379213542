import SqlFront.Token.Lexer

/-!
The lexer byte by byte.

A scan goes over the bytes of a text in UTF-8. It stands at an offset, looks at the bytes from there
on, and copies what it keeps out of the text by ranges of offsets. Nothing in its steps keeps the
ends of these ranges out of characters: behind a backslash it passes one byte, whatever character
this is the first byte of, and it puts quoted names together from parts. Most ranges give an empty
text where they cut a character; at the others, the scan breaks down.
-/

namespace SqlFront

/-- Why a scan does not come to the end of a text. -/
inductive Halt where
  /-- The text is at fault. -/
  | fault (fault : Fault)
  /-- A range that is copied without asking leaves the text or cuts a character. -/
  | cut (range : Span)
  /-- A token or a comment takes no byte, so that the scan would go on for ever. -/
  | stuck
  deriving DecidableEq

/-- The text of a range, unless it is reversed, leaves the text or cuts a character. -/
def Source.cut? (source : Source) (range : Span) : Option (List Char) :=
  if range.start ≤ range.stop then
    (dropBytes range.start source).bind (takeBytes (range.stop - range.start))
  else none

/-- The character with the number of a byte; in ASCII, the one that the byte stands for. -/
def byteChar (byte : UInt8) : Char := Char.ofNat byte.toNat

/-- A place in a text: its offset, and the bytes from there on. -/
structure BytePlace where
  offset : Nat
  bytes : List UInt8

/-- The byte at a place. -/
def BytePlace.peek? (here : BytePlace) : Option Char := here.bytes.head?.map byteChar

/-- The place behind a byte that passes a test, and else the same place. -/
def BytePlace.passIf (test : Char → Bool) (here : BytePlace) : BytePlace :=
  match here.bytes with
  | [] => here
  | b :: bytes => if test (byteChar b) then ⟨here.offset + 1, bytes⟩ else here

/-- What a scan takes for a token. -/
structure Taken where
  /-- The token; a placeholder without a label has none before it is numbered. -/
  token? : Option Token
  /-- The place behind the token. -/
  next : BytePlace
  /-- The ranges of the text that are copied for the token. -/
  copied : List Span

/-- The token that is taken at an offset, after `parameters` placeholders without a label. -/
def Taken.lexeme (parameters offset : Nat) (taken : Taken) : Lexeme :=
  ⟨taken.token?.getD (.placeholder ("?" ++ toString (parameters + 1))),
    ⟨offset, taken.next.offset⟩⟩

namespace Scan

/-! ### Passing bytes -/

/-- Passes bytes as long as they pass a test. -/
def passWhile (test : Char → Bool) (offset : Nat) : List UInt8 → BytePlace
  | [] => ⟨offset, []⟩
  | b :: bytes =>
      if test (byteChar b) then passWhile test (offset + 1) bytes else ⟨offset, b :: bytes⟩

/-- Passes a line and its end. -/
def passLine (offset : Nat) : List UInt8 → BytePlace
  | [] => ⟨offset, []⟩
  | b :: bytes =>
      if byteChar b = '\n' then ⟨offset + 1, bytes⟩ else passLine (offset + 1) bytes

/-- Passes the rest of a block comment and its end. -/
def passBlock (offset : Nat) : List UInt8 → Option BytePlace
  | [] => none
  | b :: bytes =>
      if byteChar b = '*' && bytes.head?.map byteChar = some '/' then
        some ⟨offset + 2, bytes.drop 1⟩
      else passBlock (offset + 1) bytes

/-- Passes the rest of a string and its closing quote. A backslash that escapes takes one more byte
with it. -/
def passString (quote : Char) (escapes : Bool) (offset : Nat) : List UInt8 → Option BytePlace
  | [] => none
  | b :: bytes =>
      if escapes && byteChar b = '\\' then
        match bytes with
        | [] => none
        | _ :: rest => passString quote escapes (offset + 2) rest
      else if byteChar b = quote then
        match bytes with
        | [] => some ⟨offset + 1, []⟩
        | d :: rest =>
            if byteChar d = quote then passString quote escapes (offset + 2) rest
            else some ⟨offset + 1, d :: rest⟩
      else passString quote escapes (offset + 1) bytes

/-- Passes the rest of a hexadecimal string, which starts at `start`, and its closing quote. -/
def passHexString (start offset : Nat) : List UInt8 → Except Halt BytePlace
  | [] => .error (.fault ⟨.unterminatedHexString, some start⟩)
  | b :: bytes =>
      if byteChar b = '\'' then .ok ⟨offset + 1, bytes⟩
      else if isHexDigit (byteChar b) then passHexString start (offset + 1) bytes
      else .error (.fault ⟨.notHexDigit (byteChar b), some offset⟩)

/-- Passes the rest of a quoted name, which starts at `start`, and its closing delimiter. The name
is copied part by part: `part` is where the open part starts, `name` and `copied` are what has been
copied so far. -/
def passName (source : Source) (close : Char) (start part : Nat) (name : List Char)
    (copied : List Span) (offset : Nat) : List UInt8 →
    Except Halt (List Char × BytePlace × List Span)
  | [] => .error (.fault ⟨.unterminatedName, some start⟩)
  | b :: bytes =>
      if byteChar b = close then
        let range := ⟨part, offset⟩
        match source.cut? range with
        | none => .error (.cut range)
        | some text =>
            match bytes with
            | [] => .ok (name ++ text, ⟨offset + 1, []⟩, copied ++ [range])
            | d :: rest =>
                if byteChar d = close then
                  passName source close start (offset + 2) (name ++ text ++ [close])
                    (copied ++ [range]) (offset + 2) rest
                else .ok (name ++ text, ⟨offset + 1, d :: rest⟩, copied ++ [range])
      else passName source close start part name copied (offset + 1) bytes

/-! ### Tokens -/

/-- The token whose text is a range. -/
def copy (source : Source) (token : String → Token) (range : Span) (next : BytePlace) : Taken :=
  ⟨some (token (source.slice range)), next, [range]⟩

/-- Reads a string at its opening quote. -/
def readString (source : Source) (kind : StringKind) (escapes : Bool) (here : BytePlace) :
    Except Halt Taken :=
  match passString kind.quote escapes (here.offset + 1) (here.bytes.drop 1) with
  | none => .error (.fault ⟨.unterminatedString, some here.offset⟩)
  | some next =>
      .ok (copy source (.string · kind) ⟨here.offset + 1, next.offset - 1⟩ next)

/-- Reads a quoted name at its opening delimiter. -/
def readQuotedName (source : Source) (close : Char) (here : BytePlace) : Except Halt Taken := do
  let start := here.offset
  let (name, next, copied) ←
    passName source close start (start + 1) [] [] (start + 1) (here.bytes.drop 1)
  if name.isEmpty then throw (.fault ⟨.emptyName, some start⟩)
  return ⟨some (.quotedName (String.ofList name)), next, copied⟩

/-- Reads a hexadecimal string at its letter. -/
def readHexString (source : Source) (here : BytePlace) : Except Halt Taken := do
  let first := here.offset + 2
  let next ← passHexString here.offset first (here.bytes.drop 2)
  return copy source .hexString ⟨first, next.offset - 1⟩ next

/-- Reads a hexadecimal number at its zero. -/
def readHexNumber (source : Source) (here : BytePlace) : Except Halt Taken :=
  let first := here.offset + 2
  let next := passWhile isHexDigit first (here.bytes.drop 2)
  if next.offset = first || next.peek?.any isNameChar then
    .error (.fault ⟨.invalidHexNumber, some here.offset⟩)
  else .ok (copy source .hexNumber ⟨first, next.offset⟩ next)

/-- Passes digits. -/
def passDigits (here : BytePlace) : BytePlace := passWhile Char.isDigit here.offset here.bytes

/-- Passes a point and the digits after it, where a point stands. -/
def passFraction (here : BytePlace) : BytePlace :=
  if here.peek? = some '.' then passDigits (here.passIf (· = '.')) else here

/-- Passes an exponent, where its letter stands. -/
def passExponent (here : BytePlace) : Except Halt BytePlace :=
  let isLetter := fun c => c = 'e' || c = 'E'
  if here.peek?.any isLetter then
    let digits := (here.passIf isLetter).passIf fun c => c = '+' || c = '-'
    if digits.peek?.any Char.isDigit then .ok (passDigits digits)
    else .error (.fault ⟨.missingExponent, some here.offset⟩)
  else .ok here

/-- Reads a number. -/
def readNumber (source : Source) (here : BytePlace) : Except Halt Taken := do
  let next ← passExponent (passFraction (passDigits here))
  return copy source .number ⟨here.offset, next.offset⟩ next

/-- Reads a labelled placeholder at its mark. -/
def readPlaceholder (source : Source) (inLabel : Char → Bool) (missing : SyntaxCause)
    (here : BytePlace) : Except Halt Taken :=
  let next := passWhile inLabel (here.offset + 1) (here.bytes.drop 1)
  if next.offset = here.offset + 1 then .error (.fault ⟨missing, some here.offset⟩)
  else .ok (copy source .placeholder ⟨here.offset, next.offset⟩ next)

/-- A word is a reserved word or a name. -/
def wordToken (word : String) : Token :=
  match Keyword.ofWord? word with
  | some keyword => .keyword keyword
  | none => .name word

/-- Reads a word. -/
def readWord (source : Source) (here : BytePlace) : Taken :=
  let next := passWhile isNameChar here.offset here.bytes
  copy source wordToken ⟨here.offset, next.offset⟩ next

/-- Reads an operator or punctuation. A character that starts none is shown in the complaint. -/
def readSymbol (source : Source) (c : Char) (here : BytePlace) : Except Halt Taken :=
  match (here.bytes.drop 1).head?.bind fun d => symbolOfPair? c (byteChar d) with
  | some symbol => .ok ⟨some (.symbol symbol), ⟨here.offset + 2, here.bytes.drop 2⟩, []⟩
  | none =>
      match symbolOfChar? c with
      | some symbol => .ok ⟨some (.symbol symbol), ⟨here.offset + 1, here.bytes.drop 1⟩, []⟩
      | none =>
          match dropBytes here.offset source with
          | none => .error (.cut ⟨here.offset, byteLength source⟩)
          | some tail =>
              .error (.fault ⟨.unexpectedCharacter (tail.head?.getD '?'), some here.offset⟩)

/-- Reads the token at a place. -/
def readToken (lexer : Lexer) (source : Source) (here : BytePlace) : Except Halt Taken :=
  match here.bytes with
  | [] => .ok ⟨some .eof, here, []⟩
  | b :: bytes =>
      let d := lexer.dialect
      let c := byteChar b
      let next := bytes.head?.map byteChar
      let behind : BytePlace := ⟨here.offset + 1, bytes⟩
      if c = '\'' then readString source .single lexer.backslashEscapes here
      else if c = '"' then
        if d.doubleQuotedStrings then readString source .double lexer.backslashEscapes here
        else readQuotedName source '"' here
      else if c = '[' && d.bracketNames then readQuotedName source ']' here
      else if c = '`' && d.backtickNames then readQuotedName source '`' here
      else if (c = 'N' || c = 'n') && next = some '\'' && d.nationalStrings then
        readString source .national lexer.backslashEscapes behind
      else if (c = 'E' || c = 'e') && next = some '\'' && d.escapeStrings then
        readString source .escaped true behind
      else if (c = 'X' || c = 'x') && next = some '\'' && d.hexStrings then
        readHexString source here
      else if c = '0' && (next = some 'x' || next = some 'X') && d.hexNumbers then
        readHexNumber source here
      else if c.isDigit || (c = '.' && next.any Char.isDigit) then readNumber source here
      else if c = '?' then .ok ⟨none, behind, []⟩
      else if c = '$' && d.dollarPlaceholders then
        readPlaceholder source Char.isDigit .missingParameterNumber here
      else if c = '@' && d.namedPlaceholders then
        readPlaceholder source isNameChar .missingParameterName here
      else if isNameStart c then .ok (readWord source here)
      else readSymbol source c here

/-! ### Gaps -/

/-- Passes a comment, if one starts at a place. -/
def passComment (lexer : Lexer) (here : BytePlace) : Except Halt (Option BytePlace) :=
  match here.bytes with
  | [] => .ok none
  | b :: bytes =>
      let c := byteChar b
      let next := bytes.head?.map byteChar
      if (c = '-' && next = some '-') || (c = '#' && lexer.dialect.hashComments) then
        .ok (some (passLine here.offset here.bytes))
      else if c = '/' && next = some '*' then
        match passBlock (here.offset + 2) (bytes.drop 1) with
        | some after => .ok (some after)
        | none => .error (.fault ⟨.unterminatedComment, some here.offset⟩)
      else .ok none

/-- Passes blanks and comments. -/
def passGap (lexer : Lexer) (here : BytePlace) : Except Halt BytePlace :=
  let start := passWhile isBlank here.offset here.bytes
  match passComment lexer start with
  | .error halt => .error halt
  | .ok none => .ok start
  | .ok (some after) =>
      if after.bytes.length < here.bytes.length then passGap lexer after else .error .stuck
termination_by here.bytes.length

/-! ### Texts -/

end Scan

/-- The tokens of a text, and the ranges that are copied for them. -/
structure Scan where
  lexemes : List Lexeme
  copied : List Span
  deriving DecidableEq

namespace Scan

/-- Scans a text from a place on, after `parameters` placeholders without a label. -/
def scanFrom (lexer : Lexer) (source : Source) (parameters : Nat) (here : BytePlace) :
    Except Halt Scan :=
  match passGap lexer here with
  | .error halt => .error halt
  | .ok start =>
      match readToken lexer source start with
      | .error halt => .error halt
      | .ok taken =>
          let lexeme := taken.lexeme parameters start.offset
          let counted := if taken.token?.isNone then parameters + 1 else parameters
          if lexeme.token = .eof then .ok ⟨[lexeme], taken.copied⟩
          else if taken.next.bytes.length < here.bytes.length then
            (scanFrom lexer source counted taken.next).map fun more =>
              ⟨lexeme :: more.lexemes, taken.copied ++ more.copied⟩
          else .error .stuck
termination_by here.bytes.length

end Scan

/-- Scans a text. -/
def Lexer.scan (lexer : Lexer) (source : Source) : Except Halt Scan :=
  Scan.scanFrom lexer source 0 ⟨0, utf8Bytes source⟩

end SqlFront
