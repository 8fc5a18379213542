import SqlFront.Proofs.Gaps
import SqlFront.Proofs.ParallelBatch
import SqlFront.Proofs.Sameness

/-!
Blanks and comments between tokens.

Where a token starts or ends, blanks or a comment behind a blank can be put into a text. The tokens
stay the same ones, with later places behind the insertion. So the text is accepted as it was, and
only aliases that are taken from the text can differ.
-/

namespace SqlFront

open Piece Build.Context

/-- What can be put between two tokens: blanks, or a blank and a comment. -/
inductive Spacing (dialect : Dialect) : List Char → Prop where
  | blanks {text : List Char} : (∀ c ∈ text, isBlank c) → Spacing dialect text
  | comment {text : List Char} : Comment dialect text → Spacing dialect (' ' :: text)

namespace Spacing

variable {dialect : Dialect} {text : List Char}

theorem gap (h : Spacing dialect text) : Gap dialect text := by
  cases h with
  | blanks h => exact .of_blanks h
  | comment h => exact .blank rfl (.of_comment h)

/-- No token goes on with what is put there. -/
theorem startsWithin (h : Spacing dialect text) (rest : List Char) :
    StartsWithin (!isBlank ·) rest (text ++ rest) := by
  have hblank {c : Char} (hc : isBlank c) (more : List Char) :
      StartsWithin (!isBlank ·) rest (c :: more) := by
    rintro _ ⟨⟩ hd
    simp [hc] at hd
  cases h with
  | blanks h =>
    cases text with
    | nil => exact fun _ hhead _ => hhead
    | cons c text => exact hblank (h c List.mem_cons_self) _
  | comment h => exact hblank rfl _

end Spacing

/-! ### Places between tokens -/

/-- Two beginnings of a text that are equally long are the same. -/
theorem append_inj_of_byteLength {left right left' right' : List Char}
    (h : left ++ right = left' ++ right') (hlength : byteLength left = byteLength left') :
    left = left' ∧ right = right' := by
  have htaken := congrArg (takeBytes (byteLength left)) h
  rw [takeBytes_append _ (Nat.le_refl _), takeBytes_byteLength, hlength,
    takeBytes_append _ (Nat.le_refl _), takeBytes_byteLength] at htaken
  obtain rfl := Option.some.inj htaken
  exact ⟨rfl, List.append_cancel_left h⟩

namespace Lexer

variable {lexer : Lexer} {pieces : List Piece} {before after : List Char} {lexeme : Lexeme}

/-- A text falls apart between two pieces where a token starts or ends, and the first part does not
end in the middle of a comment. -/
theorem Cuts.exists_split (h : lexer.Cuts pieces) (htext : textOf pieces = before ++ after)
    (hmem : lexeme ∈ lexemesOf 0 0 pieces)
    (hplace : byteLength before = lexeme.span.start ∨ byteLength before = lexeme.span.stop) :
    ∃ left right, pieces = left ++ right ∧ textOf left = before ∧ textOf right = after ∧
      Closed lexer.dialect left := by
  obtain ⟨front, behind, hsplit⟩ := List.append_of_mem hmem
  obtain ⟨left, piece, right, rfl, -, hpiece⟩ := exists_piece_of_lexemesOf hsplit
  have hclosed : Closed lexer.dialect left := h.closed (List.cons_ne_nil piece right)
  rw [span_of_lexeme? hpiece, Nat.zero_add] at hplace
  rcases hplace with hstart | hstop
  · rw [textOf_append] at htext
    obtain ⟨hleft, hright⟩ := append_inj_of_byteLength htext hstart.symm
    exact ⟨left, piece :: right, rfl, hleft, hright, hclosed⟩
  · -- the piece belongs to the first part, which it does not leave open, being a token
    have hkind : piece.kind ≠ .gap := by
      intro hgap
      rw [lexeme?, hgap] at hpiece
      cases hpiece
    have hlength : byteLength (textOf (left ++ [piece])) = byteLength before := by
      rw [hstop, textOf_append, byteLength_append]
      simp
    rw [List.append_cons, textOf_append] at htext
    obtain ⟨hleft, hright⟩ := append_inj_of_byteLength htext hlength
    exact ⟨left ++ [piece], right, List.append_cons .., hleft, hright,
      hclosed.append (.cons (absurd · hkind) .nil)⟩

/-- What is put between two pieces moves the tokens behind it. -/
theorem Cuts.lexemes_inserted {left right : List Piece} {gap : List Char}
    (h : lexer.Cuts (left ++ right)) (hclosed : Closed lexer.dialect left)
    (hgap : Spacing lexer.dialect gap) :
    lexer.lexemes (textOf left ++ (gap ++ textOf right)) =
      .ok (lexemesOf 0 0 left ++ (lexemesOf (parametersOf left)
        (byteLength (textOf left) + byteLength gap) right ++
          [endOf (textOf right) (byteLength (textOf left) + byteLength gap)])) := by
  refine (h.lexemesFrom_refill hclosed (hgap.startsWithin _) 0 0).mpr ⟨_, ?_, rfl⟩
  rw [lexer.lexemesFrom_gap hgap.gap, Nat.zero_add, Nat.zero_add]
  exact lexemesFrom_eq_ok.mpr ⟨right, h.right, rfl, rfl⟩

end Lexer

/-! ### The same queries -/

/-- Two texts that are looked at without aliases. -/
def Parallel.withoutAliases (config : Config) (source source' : Source) : Parallel where
  left := { config, source }
  right := { config, source := source' }
  leftView := .withoutAliases
  rightView := .withoutAliases
  Ranges _ _ := True
  limits := .refl config
  decimals := Build.Context.decimals_eq config config source source'
  hexDigits := Build.Context.hexDigits_eq config config source source'
  aliases := rfl
  join _ _ := trivial
  slice _ := rfl

/-- The tokens of two texts that fall apart into the same two parts. -/
theorem Parallel.lexemes_of_parts (config : Config) {left right : List Piece}
    {source source' : Source} {offset offset' : Nat} (hleft : source.HasAt 0 (textOf left))
    (hleft' : source'.HasAt 0 (textOf left)) (hright : source.HasAt offset (textOf right))
    (hright' : source'.HasAt offset' (textOf right)) (n : Nat) :
    List.Forall₂ (withoutAliases config source source').Lexemes
      (lexemesOf 0 0 left ++ lexemesOf n offset right)
      (lexemesOf 0 0 left ++ lexemesOf n offset' right) := by
  apply List.rel_append
  · exact lexemesOf_rel hleft hleft' (fun _ _ _ => trivial) (fun _ _ => rfl) fun _ _ _ _ => rfl
  · exact lexemesOf_rel hright hright' (fun _ _ _ => trivial) (fun _ _ => rfl) fun _ _ _ _ => rfl

/-- Texts that fall apart into the same two parts have the same queries. -/
theorem Config.parseBatch_follows_of_parts {left right : List Piece} {config : Config}
    {source source' : Source} {offset offset' n : Nat} (hleft : source.HasAt 0 (textOf left))
    (hleft' : source'.HasAt 0 (textOf left)) (hright : source.HasAt offset (textOf right))
    (hright' : source'.HasAt offset' (textOf right)) (hcuts : config.lexer.Cuts (left ++ right))
    (hlexemes : config.lexer.lexemes source = .ok (lexemesOf 0 0 left ++
      (lexemesOf n offset right ++ [endOf (textOf right) offset])))
    (hlexemes' : config.lexer.lexemes source' = .ok (lexemesOf 0 0 left ++
      (lexemesOf n offset' right ++ [endOf (textOf right) offset']))) :
    Follows (fun queries queries' => queries.isEqv queries' Query.same)
      (config.parseBatch source) (config.parseBatch source') := by
  intro queries h
  have hproper : ∀ lexeme ∈ lexemesOf 0 0 left ++ lexemesOf n offset right,
      lexeme.token ≠ .eof :=
    List.forall_mem_append.mpr ⟨hcuts.left.proper _ _, hcuts.right.proper _ _⟩
  have htokens := Parallel.lexemes_of_parts config hleft hleft' hright hright' n
  rw [parseBatch_iff_of_lexemes hlexemes, ← List.append_assoc] at h
  obtain ⟨queries', halike, hqueries'⟩ :=
    Parallel.readsQueries_follow htokens hproper h (endOf (textOf right) offset').span
  refine ⟨queries', ?_, isEqv_same_of_seen halike⟩
  rw [parseBatch_iff_of_lexemes hlexemes', ← List.append_assoc]
  exact hqueries'

theorem Config.parseBatch_inserted {config : Config} {left right : List Piece} {gap : List Char}
    (hcuts : config.lexer.Cuts (left ++ right)) (hclosed : Closed config.dialect left)
    (hgap : Spacing config.dialect gap) :
    Follows (fun queries queries' => queries.isEqv queries' Query.same)
        (config.parseBatch (textOf left ++ textOf right))
        (config.parseBatch (textOf left ++ (gap ++ textOf right))) ∧
      Follows (fun queries queries' => queries.isEqv queries' Query.same)
        (config.parseBatch (textOf left ++ (gap ++ textOf right)))
        (config.parseBatch (textOf left ++ textOf right)) := by
  have hplain : config.lexer.lexemes (textOf left ++ textOf right) = .ok (lexemesOf 0 0 left ++
      (lexemesOf (parametersOf left) (byteLength (textOf left)) right ++
        [endOf (textOf right) (byteLength (textOf left))])) := by
    refine Lexer.lexemes_eq_ok.mpr ⟨left ++ right, hcuts, textOf_append _ _, ?_⟩
    rw [lexemesOf_append, endOf_append, List.append_assoc, Nat.zero_add, Nat.zero_add]
  have hspaced := hcuts.lexemes_inserted hclosed hgap
  have hwhole := Source.HasAt.whole (textOf left ++ textOf right)
  have hwhole' := Source.HasAt.whole (textOf left ++ (gap ++ textOf right))
  have hright := hwhole.right
  have hright' := hwhole'.right.right
  rw [Nat.zero_add] at hright hright'
  constructor
  · exact parseBatch_follows_of_parts hwhole.left hwhole'.left hright hright' hcuts hplain hspaced
  · exact parseBatch_follows_of_parts hwhole'.left hwhole.left hright' hright hcuts hspaced hplain

/-- **Blanks and comments between tokens do not count.** Where a token of a text starts or ends,
blanks, or a blank and a comment, can be put into the text: it is accepted as before, and its
queries are equal to those that it had. -/
theorem parseWith_inserted {config : Config} {before after gap : String} {lexemes : List Lexeme}
    {lexeme : Lexeme} (hlexemes : tokenize config.lexer (before ++ after).toList = .ok lexemes)
    (hmem : lexeme ∈ lexemes) (hproper : lexeme.token ≠ .eof)
    (hplace : byteLength before.toList = lexeme.span.start ∨
      byteLength before.toList = lexeme.span.stop)
    (hgap : Spacing config.dialect gap.toList) :
    ((∃ queries, parseWith config (before ++ gap ++ after) = .ok queries) ↔
      ∃ queries, parseWith config (before ++ after) = .ok queries) ∧
    ∀ queries queries', parseWith config (before ++ after) = .ok queries →
      parseWith config (before ++ gap ++ after) = .ok queries' →
      queries.isEqv queries' Query.same := by
  obtain ⟨pieces, hcuts, htext, rfl⟩ := Lexer.lexemes_eq_ok.mp (mapError_eq_ok.mp hlexemes)
  have hmem : lexeme ∈ lexemesOf 0 0 pieces := by
    rcases List.mem_append.mp hmem with hmem | hend
    · exact hmem
    · obtain rfl := List.mem_singleton.mp hend
      exact absurd rfl hproper
  rw [String.toList_append] at htext
  obtain ⟨left, right, rfl, hleft, hright, hclosed⟩ := hcuts.exists_split htext hmem hplace
  have hplain : (before ++ after).toList = textOf left ++ textOf right := by
    rw [String.toList_append, hleft, hright]
  have hspaced : (before ++ gap ++ after).toList = textOf left ++ (gap.toList ++ textOf right) := by
    rw [String.toList_append, String.toList_append, hleft, hright, List.append_assoc]
  obtain ⟨hfollows, hfollows'⟩ := Config.parseBatch_inserted hcuts hclosed hgap
  simp only [parseWith_eq_ok, hplain, hspaced]
  refine ⟨⟨?_, ?_⟩, ?_⟩
  · rintro ⟨queries, hvalid, hqueries⟩
    obtain ⟨queries', hqueries', -⟩ := hfollows' queries hqueries
    exact ⟨queries', hvalid, hqueries'⟩
  · rintro ⟨queries, hvalid, hqueries⟩
    obtain ⟨queries', hqueries', -⟩ := hfollows queries hqueries
    exact ⟨queries', hvalid, hqueries'⟩
  · rintro queries queries' ⟨-, hqueries⟩ ⟨-, hqueries'⟩
    obtain ⟨others, hothers, hsame⟩ := hfollows queries hqueries
    obtain rfl : others = queries' := Except.ok.inj (hothers.symm.trans hqueries')
    exact hsame

/-- The alias that the item takes from the text is another one, with the comment in it. -/
theorem parseWith_inserted_of_sum :
    let config := Config.ofDialect .mysql
    let before := String.ofList ['S', 'E', 'L', 'E', 'C', 'T', ' ', 'a']
    let gap := String.ofList [' ', '-', '-', 'x', '\n']
    let after := String.ofList ['+', '1']
    ∃ queries queries', parseWith config (before ++ after) = .ok queries ∧
      parseWith config (before ++ gap ++ after) = .ok queries' ∧
      queries.isEqv queries' Query.same := by
  intro config before gap after
  have htext : (before ++ after).toList = ['S', 'E', 'L', 'E', 'C', 'T', ' ', 'a', '+', '1'] := by
    rw [String.toList_append, String.toList_ofList, String.toList_ofList]
    rfl
  have hlexemes : tokenize config.lexer (before ++ after).toList = .ok
      [⟨.keyword .SELECT, ⟨0, 6⟩⟩, ⟨.name "a", ⟨7, 8⟩⟩, ⟨.symbol .plus, ⟨8, 9⟩⟩,
        ⟨.number "1", ⟨9, 10⟩⟩, ⟨.eof, ⟨10, 10⟩⟩] := by
    rw [htext]
    rfl
  have hgap : Spacing config.dialect gap.toList := by
    have hbody : '\n' ∉ ['x'] := by decide
    rw [String.toList_ofList]
    exact .comment (.line (.dashes hbody))
  have hplace : byteLength before.toList = 8 := by
    rw [String.toList_ofList]
    rfl
  have hbatch : ∃ queries, config.parseBatch
      ['S', 'E', 'L', 'E', 'C', 'T', ' ', 'a', '+', '1'] = .ok queries := ⟨_, rfl⟩
  obtain ⟨queries, hbatch⟩ := hbatch
  have hqueries : parseWith config (before ++ after) = .ok queries :=
    parseWith_eq_ok.mpr ⟨rfl, htext ▸ hbatch⟩
  obtain ⟨haccepted, hsame⟩ := parseWith_inserted hlexemes (.tail _ (.head _)) nofun
    (.inr hplace) hgap
  obtain ⟨queries', hqueries'⟩ := haccepted.mpr ⟨queries, hqueries⟩
  exact ⟨queries, queries', hqueries, hqueries', hsame queries queries' hqueries hqueries'⟩

end SqlFront
