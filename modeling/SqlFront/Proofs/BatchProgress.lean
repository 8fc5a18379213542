import SqlFront.Proofs.GrammarProgress
import SqlFront.Proofs.ParserBatch

/-!
The parser of each dialect stops on every vector of tokens.

The tokens need not come from the lexer, and an end of the text may stand anywhere among them. The
parser adds one where the last token is none, and so it never moves beyond the last token.
-/

namespace SqlFront.Grammar

/-- The parser starts at the first token, with no level open. -/
def Cursor.start : Cursor := ⟨0, 0⟩

/-- The parser of a dialect before the tokens of a text of this length. -/
def parser (dialect : Dialect) (limit length : Nat) (tokens : List Lexeme) : Machine :=
  ⟨closed length tokens, bodies dialect, limit⟩

/-- Each visit of the form is further on than the visits of it before. -/
def FurtherOn (form : Form) (visits : List Visit) : Prop :=
  visits.Pairwise fun earlier later =>
    earlier.form = form → later.form = form → earlier.entry.pos < later.entry.pos

/-- The parser moves over the tokens in one direction, and never without end. -/
structure Machine.Progress (machine : Machine) (stop : Cursor) (visits : List Visit) : Prop where
  /-- No form is entered before a token at which an earlier one was entered. -/
  forward : visits.Pairwise fun earlier later => earlier.entry.pos ≤ later.entry.pos
  /-- No form goes back, or beyond the place where the parser stops. -/
  returns : ∀ visit ∈ visits, visit.entry.pos ≤ visit.stop.pos ∧ visit.stop.pos ≤ stop.pos
  /-- The parser never goes beyond the last token. -/
  inside : stop.pos < machine.tokens.length
  /-- What returns a tree has moved on. -/
  yields : ∀ visit ∈ visits, YieldsTree visit.result → visit.entry.pos < visit.stop.pos
  /-- Each round of a loop starts further on. -/
  rounds : ∀ loop ∈ visits, ∀ look body, loop.form = .whileAt look body → FurtherOn body visits

namespace Machine

variable {machine : Machine} {form : Form} {entry stop : Cursor} {result : Result}
  {visits : List Visit}

theorem Runs.furtherOn (hmachine : machine.Progressive) (hmoves : form.Moves)
    (hfruitful : form.Fruitful) (hentry : entry.pos < machine.tokens.length)
    (h : machine.Runs form entry result stop visits) {inner : Form} (hadvances : inner.Advances) :
    FurtherOn inner visits := by
  have hpairs := h.pairwise_precedes hmachine hmoves (hfruitful _) hentry
  refine hpairs.imp fun hprecedes hearlier hlater => ?_
  exact hprecedes (hearlier ▸ hadvances) (hlater.trans hearlier.symm)

/-- **A run makes progress.** -/
theorem Runs.progress (hmachine : machine.Progressive) (hmoves : form.Moves)
    (hfruitful : form.Fruitful) (hentry : entry.pos < machine.tokens.length)
    (h : machine.Runs form entry result stop visits) : machine.Progress stop visits where
  forward := h.pairwise_le
  returns visit hmem := by
    obtain ⟨inner, hrun⟩ := h.of_mem hmem
    exact ⟨hrun.pos_le, (h.between visit hmem).2⟩
  inside := h.pos_lt_length hentry
  yields visit hmem hyields := by
    obtain ⟨inner, hrun⟩ := h.of_mem hmem
    obtain ⟨hvisit, hgives⟩ := h.moves_of_mem hmachine hmoves (hfruitful _) visit hmem
    have hstop := Nat.le_trans hrun.pos_le (h.between visit hmem).2
    exact hrun.pos_lt_of_fruitfulAt hmachine hvisit
      (Nat.lt_of_le_of_lt hstop (h.pos_lt_length hentry)) hgives hyields
  rounds loop hmem look body hloop := by
    have hmoved := (h.moves_of_mem hmachine hmoves (hfruitful _) loop hmem).1
    rw [hloop] at hmoved
    exact h.furtherOn hmachine hmoves hfruitful hentry hmoved.1

end Machine

/-! ### The parser of a dialect -/

theorem getLast?_closed (length : Nat) (tokens : List Lexeme) :
    (closed length tokens).getLast?.map Lexeme.token = some .eof := by
  unfold closed
  split
  · assumption
  · simp

theorem closed_ne_nil (length : Nat) (tokens : List Lexeme) : closed length tokens ≠ [] := by
  intro hnil
  have hlast := getLast?_closed length tokens
  rw [hnil] at hlast
  cases hlast

section

variable (dialect : Dialect) (limit length : Nat) (tokens : List Lexeme)

theorem parser_progressive : (parser dialect limit length tokens).Progressive where
  closed := getLast?_closed length tokens
  moves construct := (bodies_plain dialect construct).moves
  advances construct := (bodies_starts dialect construct).1
  fruitful := bodies_fruitful dialect
  guarded construct := (bodies_starts dialect construct).2

/-- The loops over operators close what their rounds leave open, in every construct. -/
theorem parser_balanced : (parser dialect limit length tokens).Balanced where
  balanced construct := by cases dialect <;> cases construct <;> rfl
  closes construct htail := by
    cases construct with
    | sumTail | productTail => cases htail
    | _ => cases dialect <;> rfl

theorem batch_balanced : (batch dialect).balanced := by cases dialect <;> rfl

theorem start_pos_lt : Cursor.start.pos < (parser dialect limit length tokens).tokens.length :=
  List.length_pos_of_ne_nil (closed_ne_nil length tokens)

/-- The parser runs on every batch, and returns the tree that reading it has. -/
theorem exists_run : ∃ result stop visits,
    (parser dialect limit length tokens).Runs (batch dialect) .start result stop visits ∧
      readBatch dialect limit (closed length tokens) = result.map (Tree.ofParts .batch) := by
  obtain ⟨result, stop, visits, hrun, hread⟩ := Machine.runsAsRead
    (parser_progressive dialect limit length tokens) (parser_balanced dialect limit length tokens)
    (batch_moves dialect) (batch_balanced dialect)
    (start_pos_lt dialect limit length tokens) (Nat.zero_add limit)
  refine ⟨result, stop, visits, hrun, ?_⟩
  have hbatch : readForm dialect limit (batch dialect) (closed length tokens) =
      result.map fun trees => (trees, (parser dialect limit length tokens).ahead stop) := hread
  rw [readBatch_eq, hbatch]
  cases result <;> rfl

/-- The productions that contain each other, or themselves. -/
def reentered : List Form := [statement dialect, select dialect, expression, negatable, unary]

theorem reentered_advances : ∀ form ∈ reentered dialect, form.Advances := by
  have hstatement := (statement_starts dialect).1
  simp [reentered, Form.Advances, hstatement _]

/-- **The parser stops on every vector of tokens**, at any limit, with the tree or the fault that
reading has. On the way it moves on between any two entries of a production that contains itself,
and between any two rounds of a loop. -/
theorem batch_terminates : ∃ result stop visits,
    (parser dialect limit length tokens).Runs (batch dialect) .start result stop visits ∧
      (∀ result' stop' visits',
        (parser dialect limit length tokens).Runs (batch dialect) .start result' stop' visits' →
          result' = result ∧ stop' = stop ∧ visits' = visits) ∧
      readBatch dialect limit (closed length tokens) = result.map (Tree.ofParts .batch) ∧
      (parser dialect limit length tokens).Progress stop visits ∧
      (∀ form ∈ reentered dialect, FurtherOn form visits) ∧
      ∀ construct, FurtherOn (bodies dialect construct) visits := by
  obtain ⟨result, stop, visits, hrun, hread⟩ := exists_run dialect limit length tokens
  have hparser := parser_progressive dialect limit length tokens
  have hstart := start_pos_lt dialect limit length tokens
  have hfurther {form : Form} (hadvances : form.Advances) : FurtherOn form visits :=
    hrun.furtherOn hparser (batch_moves dialect) (batch_fruitful dialect) hstart hadvances
  refine ⟨result, stop, visits, hrun, fun _ _ _ h => hrun.unique h, hread, ?_, ?_, ?_⟩
  · exact hrun.progress hparser (batch_moves dialect) (batch_fruitful dialect) hstart
  · exact fun form hmem => hfurther (reentered_advances dialect form hmem)
  · exact fun construct => hfurther (bodies_starts dialect construct).1

end

end SqlFront.Grammar
