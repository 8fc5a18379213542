import SqlFront.Proofs.CursorDepth
import SqlFront.Proofs.CursorProgress

/-!
Every form has a run, and the run does what reading by the form says.

The levels that reading has left are those between the counter and the limit, because every form
that another one follows gives its levels back. A repetition never needs more rounds than there are
tokens, because each of them takes one.
-/

namespace SqlFront.Grammar.Machine

variable {machine : Machine}

/-- A form runs from here, and reading by it has the same result and goes on with the same tokens.
-/
def RunsAsRead (machine : Machine) (levels : Nat) (form : Form) (here : Cursor) : Prop :=
  ∃ result stop visits, machine.Runs form here result stop visits ∧
    form.read (enter machine.bodies machine.limit levels) (machine.ahead here) =
      result.map fun trees => (trees, machine.ahead stop)

theorem ahead_eq_cons {here : Cursor} (h : here.pos < machine.tokens.length) :
    machine.ahead here = machine.tokens[here.pos] :: machine.tokens.drop (here.pos + 1) :=
  List.drop_eq_getElem_cons h

theorem length_ahead (here : Cursor) :
    (machine.ahead here).length = machine.tokens.length - here.pos :=
  List.length_drop

/-- A token that is taken is the next one, since it is not the last one. -/
theorem taken_eq (hmachine : machine.Progressive) {accepts : Token → Bool} {here : Cursor}
    (heof : accepts .eof = false) (haccepts : accepts (machine.next here))
    (hhere : here.pos < machine.tokens.length) :
    machine.taken here = [.leaf machine.tokens[here.pos]] ∧
      machine.ahead (machine.advance here) = machine.tokens.drop (here.pos + 1) := by
  have hmoved := pos_lt_advance hmachine heof haccepts hhere
  unfold advance at hmoved ⊢
  split at hmoved
  · rename_i hroom
    have hmin : min here.pos (machine.tokens.length - 1) = here.pos := by omega
    rw [if_pos hroom, taken, hmin, List.getElem?_eq_getElem hhere]
    exact ⟨rfl, rfl⟩
  · exact absurd hmoved (Nat.lt_irrefl _)

theorem runsAsRead_token {levels : Nat} (hmachine : machine.Progressive)
    {accepts : Token → Bool} {wanted : String} {here : Cursor}
    (heof : accepts .eof = false) (hhere : here.pos < machine.tokens.length) :
    machine.RunsAsRead levels (.token accepts wanted) here := by
  have hnext : machine.next here = machine.tokens[here.pos].token := by
    rw [next, ahead_eq_cons hhere, current]
  cases haccepts : accepts (machine.next here) with
  | false =>
    refine ⟨_, _, _, .refused haccepts rfl, ?_⟩
    rw [Form.read, ahead_eq_cons hhere, readToken, if_neg (by simp [← hnext, haccepts])]
    simp [Except.map, hnext]
  | true =>
    obtain ⟨htaken, hrest⟩ := taken_eq hmachine heof haccepts hhere
    refine ⟨_, _, _, .token haccepts, ?_⟩
    rw [Form.read, ahead_eq_cons hhere, readToken, if_pos (by rw [← hnext, haccepts]), htaken,
      hrest]
    rfl

theorem runsAsRead_seq {levels : Nat} {first second : Form} {here : Cursor}
    (hfirst : machine.RunsAsRead levels first here)
    (hsecond : ∀ trees mid visits, machine.Runs first here (.ok trees) mid visits →
      machine.RunsAsRead levels second mid) :
    machine.RunsAsRead levels (.seq first second) here := by
  obtain ⟨result, mid, visits, hrun, hread⟩ := hfirst
  cases result with
  | error fault =>
    refine ⟨_, _, _, .seqFails hrun, ?_⟩
    rw [Form.read, hread]
    rfl
  | ok trees =>
    obtain ⟨part, stop, more, hmore, hreads⟩ := hsecond trees mid visits hrun
    refine ⟨_, _, _, .seq hrun hmore rfl, ?_⟩
    simp only [Form.read, hread, Except.map, bind, Except.bind, hreads]
    cases part <;> rfl

theorem runsAsRead_extend {levels : Nat} {first rest : Form} {rule : Token → Token → Option Rule}
    {here : Cursor} (hfirst : machine.RunsAsRead levels first here)
    (hrest : ∀ trees mid visits, machine.Runs first here (.ok trees) mid visits →
      machine.RunsAsRead levels rest mid) :
    machine.RunsAsRead levels (.extend first rule rest) here := by
  obtain ⟨result, mid, visits, hrun, hread⟩ := hfirst
  cases result with
  | error fault =>
    refine ⟨_, _, _, .extendFails hrun, ?_⟩
    rw [Form.read, hread]
    rfl
  | ok trees =>
    cases hmade : machine.production rule mid with
    | none =>
      refine ⟨_, _, _, .extendStops hrun hmade, ?_⟩
      rw [production, next] at hmade
      simp only [Form.read, hread, Except.map, bind, Except.bind, hmade]
      rfl
    | some made =>
      obtain ⟨part, out, more, hmore, hreads⟩ := hrest trees mid visits hrun
      refine ⟨_, _, _, .extendGoes hrun hmade hmore rfl rfl, ?_⟩
      rw [production, next] at hmade
      have hended : machine.ahead (ended rest mid out) = machine.ahead out := by
        rw [ahead, pos_ended, ahead]
      simp only [Form.read, hread, Except.map, bind, Except.bind, hmade, hreads, hended]
      cases part <;> rfl

/-- A repetition runs on as long as its rounds do, since the tokens do not last. -/
theorem runsAsRead_whileAt {levels : Nat} (hmachine : machine.Progressive) {look : Lookahead}
    {body : Form} (hmoves : body.Moves) (hadvances : body.Advances) {depth : Nat}
    (hcloses : ∀ {here result stop visits}, machine.Runs body here result stop visits →
      stop.depth = here.depth)
    (hbody : ∀ here : Cursor, here.pos < machine.tokens.length → here.depth = depth →
      machine.RunsAsRead levels body here)
    {times : Nat} {here : Cursor} (hhere : here.pos < machine.tokens.length)
    (hdepth : here.depth = depth) (htimes : (machine.ahead here).length ≤ times) :
    ∃ result stop visits, machine.Runs (.whileAt look body) here result stop visits ∧
      readWhile look (body.read (enter machine.bodies machine.limit levels)) times
        (machine.ahead here) = result.map fun trees => (trees, machine.ahead stop) := by
  induction times generalizing here with
  | zero =>
    rw [length_ahead] at htimes
    omega
  | succ times ih =>
    cases hlook : look.holds (machine.ahead here) with
    | false => exact ⟨_, _, _, .whileEnds hlook, by rw [readWhile, hlook]; rfl⟩
    | true =>
      obtain ⟨result, mid, visits, hrun, hread⟩ := hbody here hhere hdepth
      cases result with
      | error fault =>
        refine ⟨_, _, _, .whileFails hlook hrun, ?_⟩
        simp only [readWhile, hlook, if_true, hread]
        rfl
      | ok trees =>
        have hmoved := hrun.pos_lt_of_advancesAt hmachine hmoves hhere rfl (hadvances _)
        have hfewer : (machine.ahead mid).length ≤ times := by
          rw [length_ahead] at htimes ⊢
          omega
        obtain ⟨part, stop, more, hmore, hreads⟩ :=
          ih (hrun.pos_lt_length hhere) ((hcloses hrun).trans hdepth) hfewer
        refine ⟨_, _, _, .whileGoes hlook hrun hmore rfl, ?_⟩
        simp only [readWhile, hlook, if_true, hread, Except.map, bind, Except.bind, hreads]
        cases part <;> rfl

/-- Every form runs as it reads, where the constructs do. -/
theorem runsAsRead_of_deeper {levels : Nat} (hmachine : machine.Progressive)
    (hbodies : machine.Balanced)
    (hdeeper : ∀ construct (here : Cursor), here.pos < machine.tokens.length →
      here.depth + levels = machine.limit → machine.RunsAsRead levels (.deeper construct) here)
    {form : Form} (hmoves : form.Moves) (hform : form.balanced) {here : Cursor}
    (hhere : here.pos < machine.tokens.length) (hdepth : here.depth + levels = machine.limit) :
    machine.RunsAsRead levels form here := by
  induction form generalizing here with
  | empty => exact ⟨_, _, _, .empty, rfl⟩
  | token accepts wanted => exact runsAsRead_token hmachine hmoves hhere
  | refuse cause => exact ⟨_, _, _, .refuse rfl, rfl⟩
  | seq first second ihfirst ihsecond =>
    simp only [Form.balanced, Bool.and_eq_true, Bool.not_eq_true'] at hform
    obtain ⟨⟨hcloses, hfirst⟩, hsecond⟩ := hform
    refine runsAsRead_seq (ihfirst hmoves.1 hfirst hhere hdepth) fun trees mid visits hrun => ?_
    refine ihsecond hmoves.2 hsecond (hrun.pos_lt_length hhere) ?_
    rw [hrun.depth_eq hbodies hfirst hcloses, hdepth]
  | ifAt look yes no ihyes ihno =>
    simp only [Form.balanced, Bool.and_eq_true] at hform
    cases hlook : look.holds (machine.ahead here) with
    | false =>
      obtain ⟨result, stop, visits, hrun, hread⟩ := ihno hmoves.2 hform.2 hhere hdepth
      refine ⟨result, stop, _, .ifAt (by simpa [hlook] using hrun), ?_⟩
      simpa [Form.read, hlook] using hread
    | true =>
      obtain ⟨result, stop, visits, hrun, hread⟩ := ihyes hmoves.1 hform.1 hhere hdepth
      refine ⟨result, stop, _, .ifAt (by simpa [hlook] using hrun), ?_⟩
      simpa [Form.read, hlook] using hread
  | whileAt look body ih =>
    simp only [Form.balanced, Bool.and_eq_true, Bool.not_eq_true'] at hform
    refine runsAsRead_whileAt hmachine hmoves.2 hmoves.1
      (fun hrun => hrun.depth_eq hbodies hform.2 hform.1) (fun here hhere hsame => ?_) hhere rfl
      (Nat.le_refl _)
    exact ih hmoves.2 hform.2 hhere (by rw [hsame, hdepth])
  | extend first rule rest ihfirst ihrest =>
    simp only [Form.balanced, Bool.and_eq_true, Bool.not_eq_true'] at hform
    obtain ⟨⟨⟨hcloses, -⟩, hfirst⟩, hrest⟩ := hform
    refine runsAsRead_extend (ihfirst hmoves.1 hfirst hhere hdepth) fun trees mid visits hrun => ?_
    refine ihrest hmoves.2 hrest (hrun.pos_lt_length hhere) ?_
    rw [hrun.depth_eq hbodies hfirst hcloses, hdepth]
  | deeper construct => exact hdeeper construct here hhere hdepth

/-- **Every form has a run**, within the limit, and the run has the result of reading by the form.
-/
theorem runsAsRead (hmachine : machine.Progressive) (hbodies : machine.Balanced) {form : Form}
    (hmoves : form.Moves) (hform : form.balanced) {levels : Nat} {here : Cursor}
    (hhere : here.pos < machine.tokens.length) (hdepth : here.depth + levels = machine.limit) :
    machine.RunsAsRead levels form here := by
  induction levels generalizing form here with
  | zero =>
    refine runsAsRead_of_deeper hmachine hbodies (fun construct here _ hdepth => ?_) hmoves hform
      hhere hdepth
    exact ⟨_, _, _, .tooDeep (Nat.le_of_eq hdepth.symm) rfl, rfl⟩
  | succ levels ih =>
    refine runsAsRead_of_deeper hmachine hbodies (fun construct here hhere hdepth => ?_) hmoves
      hform hhere hdepth
    have hroom : here.depth < machine.limit := by omega
    have hthere : (opened here).pos < machine.tokens.length := hhere
    have hopened : (opened here).depth + levels = machine.limit := by
      simp only [opened]
      omega
    obtain ⟨result, out, visits, hrun, hread⟩ :=
      ih (hmachine.moves construct) (hbodies.balanced construct) hthere hopened
    refine ⟨_, _, _, .deeper hroom hrun rfl, ?_⟩
    have hleft : machine.ahead (left construct out) = machine.ahead out := by
      rw [ahead, pos_left, ahead]
    rw [hleft]
    exact hread

end SqlFront.Grammar.Machine
