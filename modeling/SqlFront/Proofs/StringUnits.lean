import SqlFront.Parse
import SqlFront.Proofs.Cutting
import SqlFront.Proofs.HexadecimalText
import SqlFront.Proofs.QuotedStrings

/-!
The units of a string, on which the lexer and the decoder agree.

What stands between the quotes of a string falls into units from left to right: a quote that is
written twice, a backslash with the character after it where backslashes escape, and any other
character alone. The lexer stops at a quote only between two units, and the decoder goes from one
unit to the next. So it never comes to a quote that is alone or to a backslash with nothing after
it, whatever text the string was found in.
-/

namespace SqlFront

/-- A unit of what stands between the quotes of a string. -/
inductive StringUnit where
  /-- A character that stands for itself. -/
  | plain (c : Char)
  /-- A quote that is written twice. -/
  | doubledQuote
  /-- A backslash and the character after it. -/
  | escape (c : Char)
  deriving DecidableEq, Repr

namespace StringUnit

/-- A unit as it is written between these quotes. -/
def text (quote : Char) : StringUnit → List Char
  | plain c => [c]
  | doubledQuote => [quote, quote]
  | escape c => ['\\', c]

/-- What a unit stands for. The wildcards of patterns keep their backslash. -/
def meaning (quote : Char) : StringUnit → List Char
  | plain c => [c]
  | doubledQuote => [quote]
  | escape c => if c = '%' || c = '_' then ['\\', c] else [Literal.escapedChar c]

/-- The unit can stand between these quotes: only what is neither a quote nor a backslash that
escapes stands for itself. -/
def Fits (quote : Char) (escapes : Bool) : StringUnit → Prop
  | plain c => c ≠ quote ∧ ¬(escapes = true ∧ c = '\\')
  | doubledQuote => True
  | escape _ => escapes = true

/-- The text of units that follow each other. -/
def textOf (quote : Char) (units : List StringUnit) : List Char :=
  units.flatMap (text quote)

@[simp]
theorem textOf_nil (quote : Char) : textOf quote [] = [] := rfl

@[simp]
theorem textOf_cons (quote : Char) (unit : StringUnit) (units : List StringUnit) :
    textOf quote (unit :: units) = unit.text quote ++ textOf quote units :=
  List.flatMap_cons

end StringUnit

open StringUnit

/-- The text falls into these units, each of which can stand between the quotes. -/
structure SplitsInto (quote : Char) (escapes : Bool) (body : List Char)
    (units : List StringUnit) : Prop where
  fits : ∀ unit ∈ units, unit.Fits quote escapes
  text : textOf quote units = body

section

variable {quote : Char} {escapes : Bool}

theorem splitsInto_cons {body : List Char} {unit : StringUnit} {units : List StringUnit} :
    SplitsInto quote escapes body (unit :: units) ↔
      unit.Fits quote escapes ∧
        ∃ rest, body = unit.text quote ++ rest ∧ SplitsInto quote escapes rest units := by
  constructor
  · rintro ⟨fits, rfl⟩
    obtain ⟨first, others⟩ := List.forall_mem_cons.mp fits
    exact ⟨first, _, textOf_cons .., others, rfl⟩
  · rintro ⟨first, rest, rfl, others, rfl⟩
    exact ⟨List.forall_mem_cons.mpr ⟨first, others⟩, textOf_cons ..⟩

/-! ### The split -/

/-- The first unit of a text is decided by the text. -/
theorem StringUnit.Fits.unique (hquote : quote ≠ '\\') {unit other : StringUnit}
    {rest rest' : List Char} (h : unit.Fits quote escapes) (h' : other.Fits quote escapes)
    (same : unit.text quote ++ rest = other.text quote ++ rest') : unit = other ∧ rest = rest' := by
  cases unit <;> cases other <;>
    simp only [Fits, StringUnit.text, List.cons_append, List.nil_append, List.cons.injEq] at * <;>
    grind

theorem StringUnit.text_ne_nil (quote : Char) (unit : StringUnit) : unit.text quote ≠ [] := by
  cases unit <;> exact List.cons_ne_nil _ _

/-- **There is one way to split a text.** -/
theorem SplitsInto.unique (hquote : quote ≠ '\\') {body : List Char}
    {units others : List StringUnit} (h : SplitsInto quote escapes body units)
    (h' : SplitsInto quote escapes body others) : units = others := by
  induction units generalizing body others with
  | nil =>
    obtain rfl : [] = body := h.text
    cases others with
    | nil => rfl
    | cons other others =>
      obtain ⟨-, rest, hbody, -⟩ := splitsInto_cons.mp h'
      exact absurd (List.append_eq_nil_iff.mp hbody.symm).1 (other.text_ne_nil quote)
  | cons unit units ih =>
    obtain ⟨first, rest, rfl, hrest⟩ := splitsInto_cons.mp h
    cases others with
    | nil => exact absurd (List.append_eq_nil_iff.mp h'.text.symm).1 (unit.text_ne_nil quote)
    | cons other others =>
      obtain ⟨first', rest', same, hrest'⟩ := splitsInto_cons.mp h'
      obtain ⟨rfl, rfl⟩ := first.unique hquote first' same
      rw [ih hrest hrest']

/-- Where the lexer finds the end of a string, its body falls into units. -/
theorem exists_splitsInto_of_stringBody {input body : List Char}
    (h : stringBody quote escapes input = some body) :
    ∃ units, SplitsInto quote escapes body units := by
  fun_induction stringBody quote escapes input generalizing body with
  | case1 => cases h
  | case2 => cases h
  | case3 c hescape d rest ih =>
    obtain ⟨inner, hinner, rfl⟩ := Option.map_eq_some_iff.mp h
    obtain ⟨units, hunits⟩ := ih hinner
    obtain ⟨hescapes, hc⟩ := Bool.and_eq_true_iff.mp hescape
    obtain rfl := of_decide_eq_true hc
    exact ⟨.escape d :: units, splitsInto_cons.mpr ⟨hescapes, inner, rfl, hunits⟩⟩
  | case4 =>
    cases h
    exact ⟨[], by simp, rfl⟩
  | case5 hescape rest ih =>
    obtain ⟨inner, hinner, rfl⟩ := Option.map_eq_some_iff.mp h
    obtain ⟨units, hunits⟩ := ih hinner
    exact ⟨.doubledQuote :: units, splitsInto_cons.mpr ⟨trivial, inner, rfl, hunits⟩⟩
  | case6 =>
    cases h
    exact ⟨[], by simp, rfl⟩
  | case7 c cs hescape hquote ih =>
    obtain ⟨inner, hinner, rfl⟩ := Option.map_eq_some_iff.mp h
    obtain ⟨units, hunits⟩ := ih hinner
    exact ⟨.plain c :: units,
      splitsInto_cons.mpr ⟨⟨hquote, by simpa using hescape⟩, inner, rfl, hunits⟩⟩

theorem stringBody_pair (hquote : quote ≠ '\\') (rest : List Char) :
    stringBody quote escapes (quote :: quote :: rest) =
      (stringBody quote escapes rest).map (quote :: quote :: ·) := by
  simp [stringBody, hquote]

theorem stringBody_plain {c : Char} (hc : c ≠ quote) (hescape : ¬(escapes = true ∧ c = '\\'))
    (rest : List Char) :
    stringBody quote escapes (c :: rest) = (stringBody quote escapes rest).map (c :: ·) := by
  have plain : (escapes && decide (c = '\\')) = false :=
    Bool.eq_false_iff.mpr fun both => hescape (by simpa using both)
  rw [stringBody.eq_def]
  simp [hc, plain]

/-- What falls into units is the whole body in front of a quote that ends the string. -/
theorem SplitsInto.stringBody (hquote : quote ≠ '\\') {body : List Char} {units : List StringUnit}
    (h : SplitsInto quote escapes body units) :
    stringBody quote escapes (body ++ [quote]) = some body := by
  induction units generalizing body with
  | nil =>
    obtain rfl : [] = body := h.text
    simp [SqlFront.stringBody, hquote]
  | cons unit units ih =>
    obtain ⟨fits, rest, rfl, hrest⟩ := splitsInto_cons.mp h
    cases unit with
    | plain c =>
      simp only [StringUnit.text, List.cons_append, List.nil_append]
      rw [stringBody_plain fits.1 fits.2, ih hrest, Option.map_some]
    | doubledQuote =>
      simp only [StringUnit.text, List.cons_append, List.nil_append]
      rw [stringBody_pair hquote, ih hrest, Option.map_some]
    | escape c =>
      obtain rfl : escapes = true := fits
      simp [StringUnit.text, SqlFront.stringBody, ih hrest]

/-! ### The decoder -/

theorem unescape_pair (rest : List Char) :
    Literal.unescape quote escapes (quote :: quote :: rest) =
      quote :: Literal.unescape quote escapes rest := by
  simp [Literal.unescape]

theorem unescape_escape (hquote : quote ≠ '\\') (c : Char) (rest : List Char) :
    Literal.unescape quote true ('\\' :: c :: rest) =
      (StringUnit.escape c).meaning quote ++ Literal.unescape quote true rest := by
  rw [Literal.unescape, meaning]
  simp only [hquote.symm, decide_false, Bool.false_and, Bool.false_eq_true, if_false, decide_true,
    Bool.and_self, if_true]
  split <;> rfl

theorem unescape_plain {c : Char} {rest : List Char}
    (hpair : ¬(c = quote ∧ rest.head? = some quote)) (hescape : ¬(escapes = true ∧ c = '\\')) :
    Literal.unescape quote escapes (c :: rest) = c :: Literal.unescape quote escapes rest := by
  have plain : (decide (c = '\\') && escapes) = false :=
    Bool.eq_false_iff.mpr fun both => hescape (by simpa [and_comm] using both)
  rw [Literal.unescape.eq_def]
  simp [hpair, plain]

/-- The decoder replaces the first unit by what it stands for, and goes on after it. -/
theorem unescape_text_append (hquote : quote ≠ '\\') {unit : StringUnit}
    (h : unit.Fits quote escapes) (rest : List Char) :
    Literal.unescape quote escapes (unit.text quote ++ rest) =
      unit.meaning quote ++ Literal.unescape quote escapes rest := by
  cases unit with
  | plain c => exact unescape_plain (fun pair => h.1 pair.1) h.2
  | doubledQuote => exact unescape_pair rest
  | escape c =>
    obtain rfl : escapes = true := h
    exact unescape_escape hquote c rest

/-- A body stands for what its units stand for, one after the other. -/
theorem SplitsInto.unescape (hquote : quote ≠ '\\') {body : List Char} {units : List StringUnit}
    (h : SplitsInto quote escapes body units) :
    Literal.unescape quote escapes body = units.flatMap (meaning quote) := by
  induction units generalizing body with
  | nil =>
    obtain rfl : [] = body := h.text
    rfl
  | cons unit units ih =>
    obtain ⟨first, rest, rfl, hrest⟩ := splitsInto_cons.mp h
    rw [unescape_text_append hquote first, ih hrest, List.flatMap_cons]

variable (quote escapes) in
/-- What is left of a body at the places that the decoder comes to: it steps over a pair of quotes,
over a backslash that escapes with the character after it, and else over one character. -/
inductive ComesTo (body : List Char) : List Char → Prop where
  | start : ComesTo body body
  | pair {rest : List Char} : ComesTo body (quote :: quote :: rest) → ComesTo body rest
  | escape {c : Char} {rest : List Char} : escapes = true →
      ComesTo body ('\\' :: c :: rest) → ComesTo body rest
  | plain {c : Char} {rest : List Char} : ¬(c = quote ∧ rest.head? = some quote) →
      ¬(escapes = true ∧ c = '\\') → ComesTo body (c :: rest) → ComesTo body rest

/-- What is decoded from such a place on is the end of what is decoded of the body. -/
theorem ComesTo.unescape_suffix (hquote : quote ≠ '\\') {body rest : List Char}
    (h : ComesTo quote escapes body rest) :
    Literal.unescape quote escapes rest <:+ Literal.unescape quote escapes body := by
  induction h with
  | start => exact List.suffix_rfl
  | @pair rest _ ih =>
    rw [unescape_pair] at ih
    exact (List.suffix_cons _ _).trans ih
  | @escape c rest hescapes _ ih =>
    subst hescapes
    rw [unescape_escape hquote] at ih
    exact (List.suffix_append _ _).trans ih
  | @plain c rest hpair hescape _ ih =>
    rw [unescape_plain hpair hescape] at ih
    exact (List.suffix_cons _ _).trans ih

/-- What follows the first unit falls into units as well. -/
theorem SplitsInto.after (hquote : quote ≠ '\\') (unit : StringUnit) {rest : List Char}
    {units : List StringUnit} (h : SplitsInto quote escapes (unit.text quote ++ rest) units)
    (first : unit.Fits quote escapes) : ∃ others, SplitsInto quote escapes rest others := by
  cases units with
  | nil => exact absurd (List.append_eq_nil_iff.mp h.text.symm).1 (unit.text_ne_nil quote)
  | cons other others =>
    obtain ⟨first', rest', same, hrest⟩ := splitsInto_cons.mp h
    obtain ⟨-, rfl⟩ := first.unique hquote first' same
    exact ⟨others, hrest⟩

/-- A quote at the start of units belongs to a pair. -/
theorem SplitsInto.head?_of_quote (hquote : quote ≠ '\\') {rest : List Char}
    {units : List StringUnit} (h : SplitsInto quote escapes (quote :: rest) units) :
    rest.head? = some quote := by
  cases units with
  | nil => cases h.text
  | cons unit units =>
    obtain ⟨fits, more, same, -⟩ := splitsInto_cons.mp h
    cases unit with
    | plain c => exact absurd (List.cons.inj same).1.symm fits.1
    | doubledQuote =>
      obtain ⟨-, rfl⟩ := List.cons.inj same
      rfl
    | escape c => exact absurd (List.cons.inj same).1 hquote

/-- Where backslashes escape, one of them is followed by a character. -/
theorem SplitsInto.ne_backslash (hquote : quote ≠ '\\') {units : List StringUnit}
    (h : SplitsInto quote true ['\\'] units) : False := by
  cases units with
  | nil => cases h.text
  | cons unit units =>
    obtain ⟨fits, more, same, -⟩ := splitsInto_cons.mp h
    cases unit with
    | plain c => exact fits.2 ⟨rfl, (List.cons.inj same).1.symm⟩
    | doubledQuote => exact hquote (List.cons.inj same).1.symm
    | escape c => cases (List.cons.inj same).2

/-- **The decoder only comes to places between two units.** -/
theorem SplitsInto.of_comesTo (hquote : quote ≠ '\\') {body rest : List Char}
    {units : List StringUnit} (h : SplitsInto quote escapes body units)
    (hrest : ComesTo quote escapes body rest) : ∃ others, SplitsInto quote escapes rest others := by
  induction hrest with
  | start => exact ⟨units, h⟩
  | pair _ ih =>
    obtain ⟨others, hothers⟩ := ih
    exact SplitsInto.after hquote .doubledQuote hothers trivial
  | @escape c _ hescapes _ ih =>
    obtain ⟨others, hothers⟩ := ih
    exact SplitsInto.after hquote (.escape c) hothers hescapes
  | @plain c _ hpair hescape _ ih =>
    obtain ⟨others, hothers⟩ := ih
    have hc : c ≠ quote := by
      rintro rfl
      exact hpair ⟨rfl, hothers.head?_of_quote hquote⟩
    exact SplitsInto.after hquote (.plain c) hothers ⟨hc, hescape⟩

end

/-! ### String tokens -/

section Scanners

variable {rest : List Char} {piece : Piece}

theorem quotedNamePiece_kind {first close : Char}
    (h : quotedNamePiece first close rest = .ok piece) :
    ∃ name, piece.kind = .token (.quotedName name) := by
  unfold quotedNamePiece at h
  split at h <;> cases h
  exact ⟨_, rfl⟩

theorem hexStringPiece_kind {letter : Char} (h : hexStringPiece letter rest = .ok piece) :
    ∃ digits, piece.kind = .token (.hexString digits) := by
  simp only [hexStringPiece] at h
  split at h
  · cases h
  · split at h <;> cases h
    exact ⟨_, rfl⟩

theorem hexNumberPiece_kind {zero letter : Char} (h : hexNumberPiece zero letter rest = .ok piece) :
    ∃ digits, piece.kind = .token (.hexNumber digits) := by
  simp only [hexNumberPiece] at h
  split at h <;> cases h
  exact ⟨_, rfl⟩

theorem numberPiece_kind (h : numberPiece rest = .ok piece) :
    ∃ text, piece.kind = .token (.number text) := by
  simp only [numberPiece] at h
  split at h <;> cases h
  exact ⟨_, rfl⟩

theorem placeholderPiece_kind {mark : Char} {inLabel : Char → Bool} {missing : SyntaxCause}
    (h : placeholderPiece mark inLabel missing rest = .ok piece) :
    ∃ label, piece.kind = .token (.placeholder label) := by
  simp only [placeholderPiece] at h
  split at h <;> cases h
  exact ⟨_, rfl⟩

theorem symbolPiece_kind {c : Char} (h : symbolPiece c rest = .ok piece) :
    ∃ symbol, piece.kind = .token (.symbol symbol) := by
  unfold symbolPiece at h
  split at h
  · cases h
    exact ⟨_, rfl⟩
  · split at h <;> cases h
    exact ⟨_, rfl⟩

theorem wordPiece_kind (input : List Char) :
    (∃ word, (wordPiece input).kind = .token (.keyword word)) ∨
      ∃ text, (wordPiece input).kind = .token (.name text) := by
  simp only [wordPiece]
  split
  · exact .inl ⟨_, rfl⟩
  · exact .inr ⟨_, rfl⟩

theorem stringPiece_kind {lead : List Char} {kind : StringKind} {escapes : Bool}
    (h : stringPiece lead kind escapes rest = .ok piece) :
    ∃ body, stringBody kind.quote escapes rest = some body ∧
      piece.kind = .token (.string (String.ofList body) kind) := by
  unfold stringPiece at h
  split at h <;> cases h
  exact ⟨_, ‹_›, rfl⟩

end Scanners

namespace Lexer

variable {lexer : Lexer}

/-- The body of a string token was found under the rule on backslashes that holds for its kind. -/
theorem stringBody_of_tokenPiece {c : Char} {rest : List Char} {piece : Piece} {body : String}
    {kind : StringKind} (h : lexer.tokenPiece c rest = .ok piece)
    (string : piece.kind = .token (.string body kind)) :
    ∃ input,
      stringBody kind.quote (kind.escapes lexer.backslashEscapes) input = some body.toList := by
  have found {lead input : List Char} {other : StringKind} {escapes : Bool}
      (h : stringPiece lead other escapes input = .ok piece)
      (rule : other.escapes lexer.backslashEscapes = escapes) :
      ∃ input,
        stringBody kind.quote (kind.escapes lexer.backslashEscapes) input = some body.toList := by
    obtain ⟨read, hread, made⟩ := stringPiece_kind h
    cases string.symm.trans made
    exact ⟨input, by rw [rule, hread, String.toList_ofList]⟩
  have ordinary {other : StringKind} (hother : other ≠ .escaped) :
      other.escapes lexer.backslashEscapes = lexer.backslashEscapes := by
    simp [StringKind.escapes, hother]
  -- all scanners but that of strings take tokens of another form
  have absent {token : Token} (made : piece.kind = .token token)
      (other : token ≠ .string body kind) : False :=
    other (PieceKind.token.inj (made.symm.trans string))
  have quoted {first close : Char} (h : quotedNamePiece first close rest = .ok piece) : False := by
    obtain ⟨_, made⟩ := quotedNamePiece_kind h
    exact absent made Token.noConfusion
  have labelled {mark : Char} {inLabel : Char → Bool} {missing : SyntaxCause}
      (h : placeholderPiece mark inLabel missing rest = .ok piece) : False := by
    obtain ⟨_, made⟩ := placeholderPiece_kind h
    exact absent made Token.noConfusion
  unfold tokenPiece at h
  rcases ite_eq_iff.mp h with ⟨-, h⟩ | ⟨-, h⟩
  · exact found h (ordinary (by decide))
  rcases ite_eq_iff.mp h with ⟨-, h⟩ | ⟨-, h⟩
  · rcases ite_eq_iff.mp h with ⟨-, h⟩ | ⟨-, h⟩
    · exact found h (ordinary (by decide))
    · exact (quoted h).elim
  rcases ite_eq_iff.mp h with ⟨-, h⟩ | ⟨-, h⟩
  · exact (quoted h).elim
  rcases ite_eq_iff.mp h with ⟨-, h⟩ | ⟨-, h⟩
  · exact (quoted h).elim
  rcases ite_eq_iff.mp h with ⟨-, h⟩ | ⟨-, h⟩
  · exact found h (ordinary (by decide))
  rcases ite_eq_iff.mp h with ⟨-, h⟩ | ⟨-, h⟩
  · exact found h (StringKind.escapes_escaped _)
  rcases ite_eq_iff.mp h with ⟨-, h⟩ | ⟨-, h⟩
  · obtain ⟨_, made⟩ := hexStringPiece_kind h
    exact (absent made Token.noConfusion).elim
  rcases ite_eq_iff.mp h with ⟨-, h⟩ | ⟨-, h⟩
  · obtain ⟨_, made⟩ := hexNumberPiece_kind h
    exact (absent made Token.noConfusion).elim
  rcases ite_eq_iff.mp h with ⟨-, h⟩ | ⟨-, h⟩
  · obtain ⟨_, made⟩ := numberPiece_kind h
    exact (absent made Token.noConfusion).elim
  rcases ite_eq_iff.mp h with ⟨-, h⟩ | ⟨-, h⟩
  · cases h
    cases string
  rcases ite_eq_iff.mp h with ⟨-, h⟩ | ⟨-, h⟩
  · exact (labelled h).elim
  rcases ite_eq_iff.mp h with ⟨-, h⟩ | ⟨-, h⟩
  · exact (labelled h).elim
  rcases ite_eq_iff.mp h with ⟨-, h⟩ | ⟨-, h⟩
  · cases h
    rcases wordPiece_kind (c :: rest) with ⟨_, made⟩ | ⟨_, made⟩
    · exact (absent made Token.noConfusion).elim
    · exact (absent made Token.noConfusion).elim
  · obtain ⟨_, made⟩ := symbolPiece_kind h
    exact (absent made Token.noConfusion).elim

/-- The body of every string token of a text was found so. -/
theorem stringBody_of_mem {source : Source} {lexemes : List Lexeme} {lexeme : Lexeme}
    {body : String} {kind : StringKind} (h : tokenize lexer source = .ok lexemes)
    (mem : lexeme ∈ lexemes) (token : lexeme.token = .string body kind) :
    ∃ input,
      stringBody kind.quote (kind.escapes lexer.backslashEscapes) input = some body.toList := by
  obtain ⟨pieces, cuts, -, rfl⟩ := Lexer.lexemes_eq_ok.mp (mapError_eq_ok.mp h)
  rcases List.mem_append.mp mem with mem | last
  · obtain ⟨left, right, split⟩ := List.append_of_mem mem
    obtain ⟨before, piece, after, rfl, -, made⟩ := Piece.exists_piece_of_lexemesOf split
    have string : piece.kind = .token (.string body kind) := by
      unfold Piece.lexeme? at made
      split at made
      · cases made
      · rename_i kind
        cases made
        rw [kind, ← token]
      · cases made
        cases token
    cases cuts.right with
    | cons read _ =>
      unfold Lexer.piece at read
      split at read
      · obtain ⟨_, -, gap⟩ := map_eq_ok.mp read
        cases gap
        cases string
      · exact stringBody_of_tokenPiece read string
  · obtain rfl := List.mem_singleton.mp last
    cases token

end Lexer

/-- **The lexer and the decoder agree on the units of a string.** Wherever a string token stands in
a text, and whatever the rule on backslashes is, its body falls into units under the rule that holds
for its kind, and in one way only.
- The decoder replaces the units by what they stand for, one after the other. The places that it
  comes to lie between two units, so it never comes to a quote that is not one of a pair, nor to a
  backslash that escapes and has nothing after it.
- The string is refused only if it is of the kind that can stand for bytes and consists of groups of
  hexadecimal digits, one of which ends inside a pair. -/
theorem tokenize_stringUnits {lexer : Lexer} {source : Source} {lexemes : List Lexeme}
    {lexeme : Lexeme} {body : String} {kind : StringKind}
    (h : tokenize lexer source = .ok lexemes) (mem : lexeme ∈ lexemes)
    (token : lexeme.token = .string body kind) :
    let escapes := kind.escapes lexer.backslashEscapes
    (∃! units, SplitsInto kind.quote escapes body.toList units) ∧
      (∀ units, SplitsInto kind.quote escapes body.toList units →
        Literal.unescape kind.quote escapes body.toList =
          units.flatMap (StringUnit.meaning kind.quote)) ∧
      (∀ rest, ComesTo kind.quote escapes body.toList rest →
        Literal.unescape kind.quote escapes rest <:+
            Literal.unescape kind.quote escapes body.toList ∧
          (∀ more, rest = kind.quote :: more → more.head? = some kind.quote) ∧
          ¬(escapes = true ∧ rest = ['\\'])) ∧
      ∀ decoder : Literal.HexDecoder, decoder.Lawful → ∀ cause,
        Literal.stringBy decoder body kind lexer.backslashEscapes = .error cause ↔
        kind = .escaped ∧ ∃ groups group, Literal.AreHexGroups groups ∧
          body.toList = Literal.hexMarked groups ∧
          Literal.oddGroup? groups = some group ∧ cause = .oddHexDigits (String.ofList group) := by
  intro escapes
  have hquote := kind.quote_ne_backslash
  obtain ⟨input, read⟩ := Lexer.stringBody_of_mem h mem token
  obtain ⟨units, splits⟩ := exists_splitsInto_of_stringBody read
  refine ⟨⟨units, splits, fun others other => other.unique hquote splits⟩,
    fun units splits => splits.unescape hquote, fun rest comes => ?_,
    fun decoder lawful cause => Literal.string_eq_error lawful⟩
  obtain ⟨others, left⟩ := splits.of_comesTo hquote comes
  refine ⟨comes.unescape_suffix hquote, ?_, ?_⟩
  · rintro more rfl
    exact left.head?_of_quote hquote
  · rintro ⟨rule, rfl⟩
    have left : SplitsInto kind.quote true ['\\'] others := rule ▸ left
    exact left.ne_backslash hquote

/-- A doubled quote between backslashes, of which one is written in front of a quote and one in
front of a character of two bytes. -/
theorem tokenize_stringUnits_of_escapes :
    let lexer := Lexer.ofDialect .mysql
    let body := ['\\', '\\', '\'', '\'', '\\', '\'', '\\', 'é']
    let units : List StringUnit := [.escape '\\', .doubledQuote, .escape '\'', .escape 'é']
    tokenize lexer ('\'' :: (body ++ ['\''])) =
        .ok [⟨.string (String.ofList body) .single, ⟨0, 11⟩⟩, ⟨.eof, ⟨11, 11⟩⟩] ∧
      SplitsInto '\'' true body units ∧ (∃! units, SplitsInto '\'' true body units) ∧
      Literal.unescape '\'' true body = ['\\', '\'', '\'', 'é'] := by
  intro lexer body units
  have tokens : tokenize lexer ('\'' :: (body ++ ['\''])) =
      .ok [⟨.string (String.ofList body) .single, ⟨0, 11⟩⟩, ⟨.eof, ⟨11, 11⟩⟩] := by rfl
  have splits : SplitsInto '\'' true body units := by
    constructor
    · simp [units, StringUnit.Fits]
    · rfl
  obtain ⟨unique, decoded, -⟩ := tokenize_stringUnits tokens List.mem_cons_self rfl
  rw [String.toList_ofList] at unique decoded
  exact ⟨tokens, splits, unique, decoded units splits⟩

end SqlFront
