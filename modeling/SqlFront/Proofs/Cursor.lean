import SqlFront.Grammar.Statement

/-!
The parser as a machine that moves over a vector of tokens.

`Form.read` takes tokens off a list, repeats as often as there are tokens, and hands the levels that
are left down to the constructs. A parser that runs does none of this: it keeps all the tokens, the
index of the next one and a counter of the open levels, which it raises and lowers, and nothing
limits how long it repeats or calls itself. `Machine.Runs` is such a run, from the entry of a form
to the return from it, with every form that is entered on the way. A run is finite; that there is
one for each form has to be proved.
-/

namespace SqlFront.Grammar

/-- Where the parser is: the index of the next token, and the number of open levels. -/
structure Cursor where
  pos : Nat
  depth : Nat

/-- What the parser works on: the tokens, the forms of the constructs, and the limit on levels. -/
structure Machine where
  tokens : List Lexeme
  bodies : Construct → Form
  limit : Nat

/-- The tokens with an end of the text, which is added at this offset where there is none. -/
def closed (length : Nat) (tokens : List Lexeme) : List Lexeme :=
  if tokens.getLast?.map Lexeme.token = some .eof then tokens
  else tokens ++ [⟨.eof, ⟨length, length⟩⟩]

/-- The trees of a form that returns, or the fault of one that fails. -/
abbrev Result := Except Fault (List Tree)

/-- A form that was entered: where it was, what it returned, and where it left the parser. -/
structure Visit where
  form : Form
  entry : Cursor
  result : Result
  stop : Cursor

/-- The constructs that are rounds of a loop over operators. Each operator opens a level, and all of
them are closed together at the end of the loop. -/
def Construct.isTail : Construct → Bool
  | sumTail | productTail => true
  | _ => false

/-- The form is what follows the first operand of a loop over operators. -/
def Form.isTail : Form → Bool
  | .deeper construct => construct.isTail
  | _ => false

namespace Machine

variable (machine : Machine)

/-- The tokens from the next one on. -/
def ahead (here : Cursor) : List Lexeme := machine.tokens.drop here.pos

def next (here : Cursor) : Token := current (machine.ahead here)

/-- Goes to the next token, but not beyond the last one. -/
def advance (here : Cursor) : Cursor :=
  if here.pos + 1 < machine.tokens.length then { here with pos := here.pos + 1 } else here

/-- The tree of the next token, or of the last one. -/
def taken (here : Cursor) : List Tree :=
  (machine.tokens[min here.pos (machine.tokens.length - 1)]?).toList.map .leaf

/-- The production that the next two tokens call for. -/
def production (rule : Token → Token → Option Rule) (here : Cursor) : Option Rule :=
  rule (machine.next here) (current (machine.ahead here).tail)

/-- Opens a level. -/
def opened (here : Cursor) : Cursor := { here with depth := here.depth + 1 }

/-- Closes the level of a construct, unless the loop that it belongs to does. -/
def left (construct : Construct) (here : Cursor) : Cursor :=
  if construct.isTail then here else { here with depth := here.depth - 1 }

/-- Closes the levels of a loop over operators, which was entered at `base`. -/
def ended (rest : Form) (base here : Cursor) : Cursor :=
  if rest.isTail then { here with depth := base.depth } else here

/-- A run of a form, from one cursor to another, with the forms that are entered, in this order. -/
inductive Runs : Form → Cursor → Result → Cursor → List Visit → Prop where
  | empty {here : Cursor} : Runs .empty here (.ok []) here [⟨.empty, here, .ok [], here⟩]
  | token {accepts : Token → Bool} {wanted : String} {here : Cursor} :
      accepts (machine.next here) →
      Runs (.token accepts wanted) here (.ok (machine.taken here)) (machine.advance here)
        [⟨.token accepts wanted, here, .ok (machine.taken here), machine.advance here⟩]
  | refused {accepts : Token → Bool} {wanted : String} {here : Cursor} {fault : Fault} :
      accepts (machine.next here) = false →
      fault = faultAt (machine.ahead here) (.unexpectedToken wanted (machine.next here)) →
      Runs (.token accepts wanted) here (.error fault) here
        [⟨.token accepts wanted, here, .error fault, here⟩]
  | refuse {cause : Token → SyntaxCause} {here : Cursor} {fault : Fault} :
      fault = faultAt (machine.ahead here) (cause (machine.next here)) →
      Runs (.refuse cause) here (.error fault) here [⟨.refuse cause, here, .error fault, here⟩]
  | seqFails {first second : Form} {here stop : Cursor} {fault : Fault} {visits : List Visit} :
      Runs first here (.error fault) stop visits →
      Runs (.seq first second) here (.error fault) stop
        (⟨.seq first second, here, .error fault, stop⟩ :: visits)
  | seq {first second : Form} {here mid stop : Cursor} {trees : List Tree} {part result : Result}
      {visits more : List Visit} : Runs first here (.ok trees) mid visits →
      Runs second mid part stop more → result = part.map (trees ++ ·) →
      Runs (.seq first second) here result stop
        (⟨.seq first second, here, result, stop⟩ :: (visits ++ more))
  | ifAt {look : Lookahead} {yes no : Form} {here stop : Cursor} {result : Result}
      {visits : List Visit} :
      Runs (if look.holds (machine.ahead here) then yes else no) here result stop visits →
      Runs (.ifAt look yes no) here result stop (⟨.ifAt look yes no, here, result, stop⟩ :: visits)
  | whileEnds {look : Lookahead} {body : Form} {here : Cursor} :
      look.holds (machine.ahead here) = false →
      Runs (.whileAt look body) here (.ok []) here [⟨.whileAt look body, here, .ok [], here⟩]
  | whileFails {look : Lookahead} {body : Form} {here stop : Cursor} {fault : Fault}
      {visits : List Visit} : look.holds (machine.ahead here) →
      Runs body here (.error fault) stop visits →
      Runs (.whileAt look body) here (.error fault) stop
        (⟨.whileAt look body, here, .error fault, stop⟩ :: visits)
  | whileGoes {look : Lookahead} {body : Form} {here mid stop : Cursor} {trees : List Tree}
      {part result : Result} {visits more : List Visit} : look.holds (machine.ahead here) →
      Runs body here (.ok trees) mid visits → Runs (.whileAt look body) mid part stop more →
      result = part.map (trees ++ ·) →
      Runs (.whileAt look body) here result stop
        (⟨.whileAt look body, here, result, stop⟩ :: (visits ++ more))
  | extendFails {first rest : Form} {rule : Token → Token → Option Rule} {here stop : Cursor}
      {fault : Fault} {visits : List Visit} : Runs first here (.error fault) stop visits →
      Runs (.extend first rule rest) here (.error fault) stop
        (⟨.extend first rule rest, here, .error fault, stop⟩ :: visits)
  | extendStops {first rest : Form} {rule : Token → Token → Option Rule} {here stop : Cursor}
      {trees : List Tree} {visits : List Visit} : Runs first here (.ok trees) stop visits →
      machine.production rule stop = none →
      Runs (.extend first rule rest) here (.ok trees) stop
        (⟨.extend first rule rest, here, .ok trees, stop⟩ :: visits)
  | extendGoes {first rest : Form} {rule : Token → Token → Option Rule} {here mid out stop : Cursor}
      {trees : List Tree} {made : Rule} {part result : Result} {visits more : List Visit} :
      Runs first here (.ok trees) mid visits → machine.production rule mid = some made →
      Runs rest mid part out more →
      result = part.map (fun others => [Tree.ofParts made (trees ++ others)]) →
      stop = ended rest mid out →
      Runs (.extend first rule rest) here result stop
        (⟨.extend first rule rest, here, result, stop⟩ :: (visits ++ more))
  | tooDeep {construct : Construct} {here : Cursor} {fault : Fault} :
      machine.limit ≤ here.depth →
      fault = faultAt (machine.ahead here) (.nestingLimit machine.limit) →
      Runs (.deeper construct) here (.error fault) here
        [⟨.deeper construct, here, .error fault, here⟩]
  | deeper {construct : Construct} {here out stop : Cursor} {result : Result}
      {visits : List Visit} : here.depth < machine.limit →
      Runs (machine.bodies construct) (opened here) result out visits → stop = left construct out →
      Runs (.deeper construct) here result stop (⟨.deeper construct, here, result, stop⟩ :: visits)

variable {machine} {form : Form} {entry stop : Cursor} {result : Result} {visits : List Visit}

/-- The first form that is entered is the one that runs. -/
theorem Runs.exists_eq_cons (h : machine.Runs form entry result stop visits) :
    ∃ inner, visits = ⟨form, entry, result, stop⟩ :: inner := by
  cases h <;> exact ⟨_, rfl⟩

/-- Every visit is a run of its own. -/
theorem Runs.of_mem (h : machine.Runs form entry result stop visits) {visit : Visit}
    (hmem : visit ∈ visits) :
    ∃ inner, machine.Runs visit.form visit.entry visit.result visit.stop inner := by
  have hself := h
  induction h with
  | empty | token | refused | refuse | whileEnds | tooDeep =>
    obtain rfl := List.mem_singleton.mp hmem
    exact ⟨_, hself⟩
  | seqFails hrun ih | ifAt hrun ih | extendFails hrun ih | extendStops hrun _ ih
  | whileFails _ hrun ih | deeper _ hrun _ ih =>
    rcases List.mem_cons.mp hmem with rfl | hmem
    · exact ⟨_, hself⟩
    · exact ih hmem hrun
  | seq hfirst hsecond _ ihfirst ihsecond | whileGoes _ hfirst hsecond _ ihfirst ihsecond
  | extendGoes hfirst _ hsecond _ _ ihfirst ihsecond =>
    rcases List.mem_cons.mp hmem with rfl | hmem
    · exact ⟨_, hself⟩
    · rcases List.mem_append.mp hmem with hmem | hmem
      · exact ihfirst hmem hfirst
      · exact ihsecond hmem hsecond

@[simp]
theorem isOk_map {f : List Tree → List Tree} (result : Result) :
    Except.isOk (result.map f) = result.isOk := by
  cases result <;> rfl

/-- A form that returns has entered no form that failed. -/
theorem Runs.isOk_of_mem (h : machine.Runs form entry result stop visits) (hok : result.isOk)
    {visit : Visit} (hmem : visit ∈ visits) : visit.result.isOk := by
  induction h with
  | empty | token | whileEnds =>
    obtain rfl := List.mem_singleton.mp hmem
    exact hok
  | refused | refuse | seqFails | whileFails | extendFails | tooDeep => cases hok
  | ifAt _ ih | extendStops _ _ ih | deeper _ _ _ ih =>
    rcases List.mem_cons.mp hmem with rfl | hmem
    · exact hok
    · exact ih hok hmem
  | seq _ _ hresult ihfirst ihsecond | whileGoes _ _ _ hresult ihfirst ihsecond
  | extendGoes _ _ _ hresult _ ihfirst ihsecond =>
    rcases List.mem_cons.mp hmem with rfl | hmem
    · exact hok
    · rw [hresult, isOk_map] at hok
      rcases List.mem_append.mp hmem with hmem | hmem
      · exact ihfirst rfl hmem
      · exact ihsecond hok hmem

/-- **There is at most one run** of a form from a cursor. -/
theorem Runs.unique {result' : Result} {stop' : Cursor} {visits' : List Visit}
    (h : machine.Runs form entry result stop visits)
    (h' : machine.Runs form entry result' stop' visits') :
    result' = result ∧ stop' = stop ∧ visits' = visits := by
  induction h generalizing result' stop' visits' with
  | empty | refuse =>
    cases h'
    simp_all
  | token | refused | whileEnds => cases h' <;> simp_all
  | tooDeep hfull hfault =>
    cases h' with
    | tooDeep => simp_all
    | deeper hroom => exact absurd hroom (Nat.not_lt.mpr hfull)
  | ifAt _ ih =>
    cases h' with
    | ifAt h' =>
      obtain ⟨rfl, rfl, rfl⟩ := ih h'
      simp
  | seqFails _ ih =>
    cases h' with
    | seqFails h' =>
      obtain ⟨hfault, rfl, rfl⟩ := ih h'
      simp_all
    | seq h' => cases (ih h').1
  | seq _ _ hresult ihfirst ihsecond =>
    cases h' with
    | seqFails h' => cases (ihfirst h').1
    | seq h' hsecond hresult' =>
      obtain ⟨htrees, rfl, rfl⟩ := ihfirst h'
      obtain ⟨rfl, rfl, rfl⟩ := ihsecond hsecond
      simp_all
  | whileFails _ _ ih =>
    cases h' with
    | whileEnds => simp_all
    | whileFails _ h' =>
      obtain ⟨hfault, rfl, rfl⟩ := ih h'
      simp_all
    | whileGoes _ h' => cases (ih h').1
  | whileGoes _ _ _ hresult ihfirst ihsecond =>
    cases h' with
    | whileEnds => simp_all
    | whileFails _ h' => cases (ihfirst h').1
    | whileGoes _ h' hsecond hresult' =>
      obtain ⟨htrees, rfl, rfl⟩ := ihfirst h'
      obtain ⟨rfl, rfl, rfl⟩ := ihsecond hsecond
      simp_all
  | extendFails _ ih =>
    cases h' with
    | extendFails h' =>
      obtain ⟨hfault, rfl, rfl⟩ := ih h'
      simp_all
    | extendStops h' => cases (ih h').1
    | extendGoes h' => cases (ih h').1
  | extendStops _ _ ih =>
    cases h' with
    | extendFails h' => cases (ih h').1
    | extendStops h' =>
      obtain ⟨htrees, rfl, rfl⟩ := ih h'
      simp_all
    | extendGoes h' =>
      obtain ⟨htrees, rfl, rfl⟩ := ih h'
      simp_all
  | extendGoes _ _ _ hresult hstop ihfirst ihrest =>
    cases h' with
    | extendFails h' => cases (ihfirst h').1
    | extendStops h' =>
      obtain ⟨htrees, rfl, rfl⟩ := ihfirst h'
      simp_all
    | extendGoes h' hmade hrest hresult' hstop' =>
      obtain ⟨htrees, rfl, rfl⟩ := ihfirst h'
      obtain ⟨rfl, rfl, rfl⟩ := ihrest hrest
      simp_all
  | deeper hroom _ hstop ih =>
    cases h' with
    | tooDeep hfull => exact absurd hroom (Nat.not_lt.mpr hfull)
    | deeper _ h' hstop' =>
      obtain ⟨rfl, rfl, rfl⟩ := ih h'
      simp_all

end Machine

end SqlFront.Grammar
