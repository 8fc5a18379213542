import SqlFront.Proofs.Cursor

/-!
How a run moves over the tokens.

The index of the next token never goes back and stays within the tokens. It does not move when the
last token is taken; but this is an end of the text, which no test of a token passes. So a form
that takes a token moves on, and so does a form that yields a tree.
-/

namespace SqlFront.Grammar

/-! ### Forms that take tokens -/

namespace Form

/-- The form takes a token at least, where this one is the next. -/
def AdvancesAt : Form → Token → Prop
  | .empty, _ => False
  | .token _ _, _ | .refuse _, _ | .deeper _, _ => True
  | .seq first second, t => first.AdvancesAt t ∨ second.AdvancesAt t
  | .ifAt look yes no, t => ((∀ test ∈ look.head?, test t) → yes.AdvancesAt t) ∧ no.AdvancesAt t
  | .whileAt look body, t => (∃ test, look = [test] ∧ test t) ∧ body.AdvancesAt t
  | .extend first rule rest, t =>
      first.AdvancesAt t ∨ rest.AdvancesAt t ∧ ∀ token next, (rule token next).isSome

/-- The form takes a token at least, whatever is the next one. -/
def Advances (form : Form) : Prop := ∀ t, form.AdvancesAt t

/-- The form takes no end of the text, and a token in every round of a repetition. -/
def Moves : Form → Prop
  | .empty | .refuse _ | .deeper _ => True
  | .token accepts _ => accepts .eof = false
  | .seq first second => first.Moves ∧ second.Moves
  | .ifAt _ yes no => yes.Moves ∧ no.Moves
  | .whileAt _ body => body.Advances ∧ body.Moves
  | .extend first _ rest => first.Moves ∧ rest.Moves

/-- Where this token is the next one, the form takes a token if it yields a tree. -/
def FruitfulAt : Form → Token → Prop
  | .empty, _ | .token _ _, _ | .refuse _, _ | .deeper _, _ => True
  | .seq first second, t => first.FruitfulAt t ∧ ∀ t, second.FruitfulAt t
  | .ifAt look yes no, t => ((∀ test ∈ look.head?, test t) → yes.FruitfulAt t) ∧ no.FruitfulAt t
  | .whileAt _ body, _ => ∀ t, body.FruitfulAt t
  | .extend first _ rest, t =>
      first.FruitfulAt t ∧ (∀ t, rest.FruitfulAt t) ∧ (first.AdvancesAt t ∨ rest.AdvancesAt t)

/-- The form takes a token if it yields a tree. -/
def Fruitful (form : Form) : Prop := ∀ t, form.FruitfulAt t

/-- The form may enter a construct before it takes a token. -/
def Opens : Form → Prop
  | .empty | .token _ _ | .refuse _ => False
  | .seq first second => first.Opens ∨ ¬ first.Advances ∧ second.Opens
  | .ifAt _ yes no => yes.Opens ∨ no.Opens
  | .whileAt _ body => body.Opens
  | .extend first _ rest => first.Opens ∨ ¬ first.Advances ∧ rest.Opens
  | .deeper _ => True

end Form

/-- If the later visit is of the same form, and this form takes tokens, it is further on. -/
def Visit.Precedes (earlier later : Visit) : Prop :=
  earlier.form.Advances → later.form = earlier.form → earlier.entry.pos < later.entry.pos

namespace Machine

/-- The tokens have an end, and each construct takes a token before it enters another one. -/
structure Progressive (machine : Machine) : Prop where
  closed : machine.tokens.getLast?.map Lexeme.token = some .eof
  moves : ∀ construct, (machine.bodies construct).Moves
  advances : ∀ construct, (machine.bodies construct).Advances
  fruitful : ∀ construct, (machine.bodies construct).Fruitful
  guarded : ∀ construct, ¬ (machine.bodies construct).Opens

variable {machine : Machine} {form : Form} {entry stop here : Cursor} {result : Result}
  {visits : List Visit}

@[simp]
theorem pos_left (construct : Construct) (here : Cursor) :
    (left construct here).pos = here.pos := by
  unfold left
  split <;> rfl

@[simp]
theorem pos_ended (rest : Form) (base here : Cursor) : (ended rest base here).pos = here.pos := by
  unfold ended
  split <;> rfl

theorem next_eq_of_pos {other : Cursor} (h : here.pos = other.pos) :
    machine.next here = machine.next other := by
  rw [next, ahead, h, next, ahead]

/-! ### Positions -/

theorem pos_le_advance (here : Cursor) : here.pos ≤ (machine.advance here).pos := by
  unfold advance
  split <;> simp

theorem pos_advance_lt (h : here.pos < machine.tokens.length) :
    (machine.advance here).pos < machine.tokens.length := by
  unfold advance
  split
  · assumption
  · exact h

theorem Runs.pos_le (h : machine.Runs form entry result stop visits) : entry.pos ≤ stop.pos := by
  induction h with
  | token => exact pos_le_advance _
  | empty | refused | refuse | whileEnds | tooDeep => exact Nat.le_refl _
  | seqFails _ ih | extendFails _ ih | extendStops _ _ ih | whileFails _ _ ih | ifAt _ ih =>
    exact ih
  | seq _ _ _ ihfirst ihsecond | whileGoes _ _ _ _ ihfirst ihsecond =>
    exact Nat.le_trans ihfirst ihsecond
  | extendGoes _ _ _ _ hstop ihfirst ihrest =>
    rw [hstop, pos_ended]
    exact Nat.le_trans ihfirst ihrest
  | deeper _ _ hstop ih =>
    rw [hstop, pos_left]
    exact ih

theorem Runs.pos_lt_length (h : machine.Runs form entry result stop visits)
    (hentry : entry.pos < machine.tokens.length) : stop.pos < machine.tokens.length := by
  induction h with
  | token => exact pos_advance_lt hentry
  | empty | refused | refuse | whileEnds | tooDeep => exact hentry
  | seqFails _ ih | extendFails _ ih | extendStops _ _ ih | whileFails _ _ ih | ifAt _ ih =>
    exact ih hentry
  | seq _ _ _ ihfirst ihsecond | whileGoes _ _ _ _ ihfirst ihsecond =>
    exact ihsecond (ihfirst hentry)
  | extendGoes _ _ _ _ hstop ihfirst ihrest =>
    rw [hstop, pos_ended]
    exact ihrest (ihfirst hentry)
  | deeper _ _ hstop ih =>
    rw [hstop, pos_left]
    exact ih hentry

/-- The visits lie between two positions. -/
def Between (low high : Nat) (visits : List Visit) : Prop :=
  ∀ visit ∈ visits, low ≤ visit.entry.pos ∧ visit.stop.pos ≤ high

theorem Between.append {low mid high : Nat} {visits more : List Visit}
    (hvisits : Between low mid visits) (hmore : Between mid high more) (hlow : low ≤ mid)
    (hhigh : mid ≤ high) : Between low high (visits ++ more) := by
  refine List.forall_mem_append.mpr ⟨fun visit hmem => ?_, fun visit hmem => ?_⟩
  · exact (hvisits visit hmem).imp_right (Nat.le_trans · hhigh)
  · exact (hmore visit hmem).imp_left (Nat.le_trans hlow)

/-- Whatever is entered on the way lies between the ends of a run. -/
theorem Runs.between (h : machine.Runs form entry result stop visits) :
    Between entry.pos stop.pos visits := by
  have hself {form : Form} {entry stop : Cursor} {result : Result} {visits : List Visit}
      (h : Between entry.pos stop.pos visits) :
      Between entry.pos stop.pos (⟨form, entry, result, stop⟩ :: visits) :=
    List.forall_mem_cons.mpr ⟨⟨Nat.le_refl _, Nat.le_refl _⟩, h⟩
  induction h with
  | empty | token | refused | refuse | whileEnds | tooDeep => simp [Between]
  | seqFails _ ih | extendFails _ ih | extendStops _ _ ih | whileFails _ _ ih | ifAt _ ih =>
    exact hself ih
  | seq hfirst hsecond _ ihfirst ihsecond | whileGoes _ hfirst hsecond _ ihfirst ihsecond =>
    exact hself (ihfirst.append ihsecond hfirst.pos_le hsecond.pos_le)
  | extendGoes hfirst _ hrest _ hstop ihfirst ihrest =>
    refine hself ?_
    rw [hstop, pos_ended]
    exact ihfirst.append ihrest hfirst.pos_le hrest.pos_le
  | deeper _ _ hstop ih =>
    refine hself ?_
    rw [hstop, pos_left]
    exact ih

/-- Forms are entered at positions that never go back. -/
theorem Runs.pairwise_le (h : machine.Runs form entry result stop visits) :
    visits.Pairwise fun earlier later => earlier.entry.pos ≤ later.entry.pos := by
  induction h with
  | empty | token | refused | refuse | whileEnds | tooDeep => exact List.pairwise_singleton _ _
  | seqFails hrun ih | extendFails hrun ih | extendStops hrun _ ih | whileFails _ hrun ih
  | ifAt hrun ih | deeper _ hrun _ ih =>
    exact List.pairwise_cons.mpr ⟨fun visit hmem => (hrun.between visit hmem).1, ih⟩
  | seq hfirst hsecond _ ihfirst ihsecond | whileGoes _ hfirst hsecond _ ihfirst ihsecond
  | extendGoes hfirst _ hsecond _ _ ihfirst ihsecond =>
    have hboth := hfirst.between.append hsecond.between hfirst.pos_le hsecond.pos_le
    refine List.pairwise_cons.mpr ⟨fun visit hmem => (hboth visit hmem).1,
      List.pairwise_append.mpr ⟨ihfirst, ihsecond, fun earlier hearlier later hlater => ?_⟩⟩
    obtain ⟨inner, hrun⟩ := hfirst.of_mem hearlier
    exact Nat.le_trans (Nat.le_trans hrun.pos_le (hfirst.between earlier hearlier).2)
      (hsecond.between later hlater).1

/-! ### Progress -/

/-- The last token is an end of the text. -/
theorem next_of_last (hmachine : machine.Progressive)
    (h : here.pos + 1 = machine.tokens.length) : machine.next here = .eof := by
  have hclosed := hmachine.closed
  rw [List.getLast?_eq_getElem?, ← h, Nat.add_sub_cancel, Option.map_eq_some_iff] at hclosed
  obtain ⟨last, hlast, heof⟩ := hclosed
  obtain ⟨hlt, rfl⟩ := List.getElem?_eq_some_iff.mp hlast
  rw [next, ahead, List.drop_eq_getElem_cons hlt]
  exact heof

/-- A token that is taken is not the last one. -/
theorem pos_lt_advance (hmachine : machine.Progressive) {accepts : Token → Bool}
    (heof : accepts .eof = false) (haccepts : accepts (machine.next here))
    (hhere : here.pos < machine.tokens.length) : here.pos < (machine.advance here).pos := by
  have hlast : here.pos + 1 ≠ machine.tokens.length := by
    intro hlast
    rw [next_of_last hmachine hlast, heof] at haccepts
    cases haccepts
  rw [advance, if_pos (by omega)]
  exact Nat.lt_succ_self _

/-- Of two forms one after the other, the second one starts at the same token if the first one takes
none. -/
theorem pos_lt_of_parts {first second : Form} {mid : Cursor} {high : Nat}
    (hfirst : entry.pos ≤ mid.pos) (hsecond : mid.pos ≤ high)
    (ihfirst : first.AdvancesAt (machine.next entry) → entry.pos < mid.pos)
    (ihsecond : second.AdvancesAt (machine.next mid) → mid.pos < high)
    (hadvances : first.AdvancesAt (machine.next entry) ∨ second.AdvancesAt (machine.next entry)) :
    entry.pos < high := by
  rcases Nat.eq_or_lt_of_le hfirst with hsame | hlt
  · rcases hadvances with hadvances | hadvances
    · exact Nat.lt_of_lt_of_le (ihfirst hadvances) hsecond
    · rw [next_eq_of_pos hsame] at hadvances
      exact Nat.lt_of_le_of_lt hfirst (ihsecond hadvances)
  · exact Nat.lt_of_lt_of_le hlt hsecond

/-- Where the tests before a form pass, its first test passes at the next token. -/
theorem test_of_holds {look : Lookahead} (h : look.holds (machine.ahead here)) :
    ∀ test ∈ look.head?, test (machine.next here) := by
  intro test hmem
  cases look with
  | nil => cases hmem
  | cons head tests =>
    cases hmem
    exact (Bool.and_eq_true_iff.mp h).1

/-- **A form that takes a token moves on**, if it does not fail. -/
theorem Runs.pos_lt_of_advancesAt (hmachine : machine.Progressive) (hform : form.Moves)
    (h : machine.Runs form entry result stop visits) (hentry : entry.pos < machine.tokens.length)
    (hok : result.isOk) (hadvances : form.AdvancesAt (machine.next entry)) :
    entry.pos < stop.pos := by
  induction h with
  | empty => exact hadvances.elim
  | token haccepts => exact pos_lt_advance hmachine hform haccepts hentry
  | refused | refuse | seqFails | whileFails | extendFails | tooDeep => cases hok
  | @ifAt look _ _ here _ _ _ _ ih =>
    cases hlook : look.holds (machine.ahead here) <;> simp only [hlook] at ih
    · exact ih hform.2 hentry hok hadvances.2
    · exact ih hform.1 hentry hok (hadvances.1 (test_of_holds hlook))
  | whileEnds hends =>
    obtain ⟨⟨test, rfl, htest⟩, -⟩ := hadvances
    simp_all [Lookahead.holds, next]
  | whileGoes _ _ hmore _ ihfirst _ =>
    exact Nat.lt_of_lt_of_le (ihfirst hform.2 hentry rfl hadvances.2) hmore.pos_le
  | seq hfirst hsecond hresult ihfirst ihsecond =>
    rw [hresult, isOk_map] at hok
    exact pos_lt_of_parts hfirst.pos_le hsecond.pos_le (ihfirst hform.1 hentry rfl)
      (ihsecond hform.2 (hfirst.pos_lt_length hentry) hok) hadvances
  | @extendStops _ _ rule _ stop _ _ _ hnone ih =>
    rcases hadvances with hadvances | ⟨-, hsome⟩
    · exact ih hform.1 hentry hok hadvances
    · have hrule := hsome (machine.next stop) (current (machine.ahead stop).tail)
      rw [production] at hnone
      rw [hnone] at hrule
      cases hrule
  | extendGoes hfirst _ hrest hresult hstop ihfirst ihrest =>
    rw [hresult, isOk_map] at hok
    rw [hstop, pos_ended]
    exact pos_lt_of_parts hfirst.pos_le hrest.pos_le (ihfirst hform.1 hentry rfl)
      (ihrest hform.2 (hfirst.pos_lt_length hentry) hok) (hadvances.imp_right And.left)
  | deeper _ _ hstop ih =>
    rw [hstop, pos_left]
    exact ih (hmachine.moves _) hentry hok (hmachine.advances _ _)

/-- The form returned, with a tree. -/
def YieldsTree (result : Result) : Prop := ∃ tree trees, result = .ok (tree :: trees)

theorem YieldsTree.isOk (h : YieldsTree result) : result.isOk := by
  obtain ⟨tree, trees, rfl⟩ := h
  rfl

/-- One of two parts yields a tree if both together do. -/
theorem YieldsTree.part {left : List Tree} {part : Result}
    (h : YieldsTree (part.map (left ++ ·))) : YieldsTree (.ok left) ∨ YieldsTree part := by
  obtain ⟨tree, trees, h⟩ := h
  cases part with
  | error fault => cases h
  | ok right =>
    cases left with
    | nil => exact .inr ⟨tree, trees, by simpa [Except.map] using h⟩
    | cons tree trees => exact .inl ⟨tree, trees, rfl⟩

/-- **A form that yields a tree has moved on.** -/
theorem Runs.pos_lt_of_fruitfulAt (hmachine : machine.Progressive) (hform : form.Moves)
    (h : machine.Runs form entry result stop visits) (hentry : entry.pos < machine.tokens.length)
    (hfruitful : form.FruitfulAt (machine.next entry)) (hyields : YieldsTree result) :
    entry.pos < stop.pos := by
  induction h with
  | empty | whileEnds => simp [YieldsTree] at hyields
  | token haccepts => exact pos_lt_advance hmachine hform haccepts hentry
  | refused | refuse | seqFails | whileFails | extendFails | tooDeep => cases hyields.isOk
  | @ifAt look _ _ here _ _ _ _ ih =>
    cases hlook : look.holds (machine.ahead here) with
    | false =>
      simp only [hlook] at ih
      exact ih hform.2 hentry hfruitful.2 hyields
    | true =>
      simp only [hlook] at ih
      exact ih hform.1 hentry (hfruitful.1 (test_of_holds hlook)) hyields
  | seq hfirst hsecond hresult ihfirst ihsecond =>
    rw [hresult] at hyields
    rcases hyields.part with hyields | hyields
    · exact Nat.lt_of_lt_of_le (ihfirst hform.1 hentry hfruitful.1 hyields) hsecond.pos_le
    · exact Nat.lt_of_le_of_lt hfirst.pos_le
        (ihsecond hform.2 (hfirst.pos_lt_length hentry) (hfruitful.2 _) hyields)
  | whileGoes _ hbody hmore _ _ _ =>
    exact Nat.lt_of_lt_of_le (hbody.pos_lt_of_advancesAt hmachine hform.2 hentry rfl (hform.1 _))
      hmore.pos_le
  | extendStops _ _ ih => exact ih hform.1 hentry hfruitful.1 hyields
  | extendGoes hfirst _ hrest hresult hstop _ _ =>
    have hok := hyields.isOk
    rw [hresult, isOk_map] at hok
    rw [hstop, pos_ended]
    exact pos_lt_of_parts hfirst.pos_le hrest.pos_le
      (hfirst.pos_lt_of_advancesAt hmachine hform.1 hentry rfl)
      (hrest.pos_lt_of_advancesAt hmachine hform.2 (hfirst.pos_lt_length hentry) hok) hfruitful.2.2
  | deeper _ _ hstop ih =>
    rw [hstop, pos_left]
    exact ih (hmachine.moves _) hentry (hmachine.fruitful _ _) hyields

/-- Every form that is entered moves, and takes a token if it yields a tree. -/
theorem Runs.moves_of_mem (hmachine : machine.Progressive) (hform : form.Moves)
    (hfruitful : form.FruitfulAt (machine.next entry))
    (h : machine.Runs form entry result stop visits) :
    ∀ visit ∈ visits, visit.form.Moves ∧ visit.form.FruitfulAt (machine.next visit.entry) := by
  induction h with
  | empty | token | refused | refuse | whileEnds | tooDeep => simpa using ⟨hform, hfruitful⟩
  | seqFails _ ih | extendFails _ ih | extendStops _ _ ih =>
    exact List.forall_mem_cons.mpr ⟨⟨hform, hfruitful⟩, ih hform.1 hfruitful.1⟩
  | whileFails _ _ ih =>
    exact List.forall_mem_cons.mpr ⟨⟨hform, hfruitful⟩, ih hform.2 (hfruitful _)⟩
  | @ifAt look _ _ here _ _ _ _ ih =>
    refine List.forall_mem_cons.mpr ⟨⟨hform, hfruitful⟩, ?_⟩
    cases hlook : look.holds (machine.ahead here) <;> simp only [hlook] at ih
    · exact ih hform.2 hfruitful.2
    · exact ih hform.1 (hfruitful.1 (test_of_holds hlook))
  | deeper _ _ _ ih =>
    exact List.forall_mem_cons.mpr
      ⟨⟨hform, hfruitful⟩, ih (hmachine.moves _) (hmachine.fruitful _ _)⟩
  | seq _ _ _ ihfirst ihsecond =>
    exact List.forall_mem_cons.mpr ⟨⟨hform, hfruitful⟩, List.forall_mem_append.mpr
      ⟨ihfirst hform.1 hfruitful.1, ihsecond hform.2 (hfruitful.2 _)⟩⟩
  | whileGoes _ _ _ _ ihbody ihmore =>
    exact List.forall_mem_cons.mpr ⟨⟨hform, hfruitful⟩, List.forall_mem_append.mpr
      ⟨ihbody hform.2 (hfruitful _), ihmore hform hfruitful⟩⟩
  | extendGoes _ _ _ _ _ ihfirst ihrest =>
    exact List.forall_mem_cons.mpr ⟨⟨hform, hfruitful⟩, List.forall_mem_append.mpr
      ⟨ihfirst hform.1 hfruitful.1, ihrest hform.2 (hfruitful.2.1 _)⟩⟩

/-! ### Entering a form again -/

/-- The form is entered below the other one, where no token has been taken in between: no construct
has been opened and it is a part of the other one, or the construct has been opened already. -/
def Below (inner outer : Form) : Prop :=
  outer.Opens ∧ ¬ inner.Opens ∨ (inner.Opens → outer.Opens) ∧ sizeOf inner < sizeOf outer

theorem Below.irrefl (form : Form) : ¬ Below form form := by
  rintro (⟨hopens, hnot⟩ | ⟨-, hlt⟩)
  · exact hnot hopens
  · exact Nat.lt_irrefl _ hlt

theorem Below.trans {inner mid outer : Form} (h : Below inner mid) (h' : Below mid outer) :
    Below inner outer := by
  unfold Below at *
  by_cases hmid : mid.Opens <;> by_cases houter : outer.Opens <;> by_cases hinner : inner.Opens <;>
    simp_all <;> omega

/-- A part that is entered at the token of a form lies below that form, and so does what is entered
below the part. -/
theorem Runs.below_of_part {inner outer : Form} (h : machine.Runs inner entry result stop visits)
    (hinner : Below inner outer)
    (ih : ∀ visit ∈ visits.tail, visit.entry.pos = entry.pos → Below visit.form inner) :
    ∀ visit ∈ visits, visit.entry.pos = entry.pos → Below visit.form outer := by
  obtain ⟨others, rfl⟩ := h.exists_eq_cons
  refine List.forall_mem_cons.mpr ⟨fun _ => hinner, fun visit hmem hpos => ?_⟩
  exact (ih visit hmem hpos).trans hinner

/-- If a second part is entered at the token of the first one, no token has been taken by that. -/
theorem Runs.below_of_second {first second outer : Form} {mid : Cursor} {trees : List Tree}
    {more : List Visit} (hmachine : machine.Progressive) (hmoves : first.Moves)
    (hfirst : machine.Runs first entry (.ok trees) mid visits)
    (hsecond : machine.Runs second mid result stop more)
    (hentry : entry.pos < machine.tokens.length)
    (houter : ¬ first.Advances → Below second outer)
    (ih : ∀ visit ∈ more.tail, visit.entry.pos = mid.pos → Below visit.form second) :
    ∀ visit ∈ more, visit.entry.pos = entry.pos → Below visit.form outer := by
  intro visit hmem hpos
  have hmid : mid.pos = entry.pos :=
    Nat.le_antisymm (hpos ▸ (hsecond.between visit hmem).1) hfirst.pos_le
  have hnone : ¬ first.Advances := fun hadvances =>
    Nat.ne_of_gt (hfirst.pos_lt_of_advancesAt hmachine hmoves hentry rfl (hadvances _)) hmid
  exact hsecond.below_of_part (houter hnone) ih visit hmem (hpos.trans hmid.symm)

/-- What is entered at the token at which a form was entered lies below that form. -/
theorem Runs.below_of_mem (hmachine : machine.Progressive) (hform : form.Moves)
    (h : machine.Runs form entry result stop visits) (hentry : entry.pos < machine.tokens.length) :
    ∀ visit ∈ visits.tail, visit.entry.pos = entry.pos → Below visit.form form := by
  induction h with
  | empty | token | refused | refuse | whileEnds | tooDeep => simp
  | seqFails hrun ih | extendFails hrun ih | extendStops hrun _ ih =>
    exact hrun.below_of_part (.inr ⟨.inl, by simp; omega⟩) (ih hform.1 hentry)
  | whileFails _ hrun ih =>
    exact hrun.below_of_part (.inr ⟨id, by rw [Form.whileAt.sizeOf_spec]; omega⟩)
      (ih hform.2 hentry)
  | @ifAt look _ _ here _ _ _ hrun ih =>
    cases hlook : look.holds (machine.ahead here) <;>
      simp only [hlook, Bool.false_eq_true, ↓reduceIte] at ih hrun
    · exact hrun.below_of_part (.inr ⟨.inr, by rw [Form.ifAt.sizeOf_spec]; omega⟩)
        (ih hform.2 hentry)
    · exact hrun.below_of_part (.inr ⟨.inl, by simp; omega⟩) (ih hform.1 hentry)
  | deeper _ hrun _ ih =>
    exact hrun.below_of_part (.inl ⟨trivial, hmachine.guarded _⟩) (ih (hmachine.moves _) hentry)
  | seq hfirst hsecond _ ihfirst ihsecond | extendGoes hfirst _ hsecond _ _ ihfirst ihsecond =>
    refine List.forall_mem_append.mpr ⟨?_, ?_⟩
    · exact hfirst.below_of_part (.inr ⟨.inl, by simp; omega⟩) (ihfirst hform.1 hentry)
    · exact hfirst.below_of_second hmachine hform.1 hsecond hentry
        (fun hnone => .inr ⟨fun hopens => .inr ⟨hnone, hopens⟩, by
          simp only [Form.seq.sizeOf_spec, Form.extend.sizeOf_spec]; omega⟩)
        (ihsecond hform.2 (hfirst.pos_lt_length hentry))
  | whileGoes _ hbody hmore _ ihbody ihmore =>
    refine List.forall_mem_append.mpr ⟨?_, ?_⟩
    · exact hbody.below_of_part (.inr ⟨id, by rw [Form.whileAt.sizeOf_spec]; omega⟩)
        (ihbody hform.2 hentry)
    · exact hbody.below_of_second hmachine hform.2 hmore hentry
        (fun hnone => (hnone hform.1).elim) (ihmore hform (hbody.pos_lt_length hentry))

/-- While a form runs, it is entered again only behind its first token. -/
theorem Runs.precedes_of_mem {inner : List Visit} (hmachine : machine.Progressive)
    (hform : form.Moves)
    (h : machine.Runs form entry result stop (⟨form, entry, result, stop⟩ :: inner))
    (hentry : entry.pos < machine.tokens.length) :
    ∀ visit ∈ inner, Visit.Precedes ⟨form, entry, result, stop⟩ visit := by
  intro visit hmem _ hsame
  have hle := (h.between visit (List.mem_cons_of_mem _ hmem)).1
  refine Nat.lt_of_le_of_ne hle fun hpos => Below.irrefl form ?_
  have hbelow := h.below_of_mem hmachine hform hentry visit hmem hpos.symm
  rwa [hsame] at hbelow

/-- Once a form has returned, every form in it that takes tokens has moved on. -/
theorem Runs.precedes_of_returned {first second : Form} {mid : Cursor} {trees : List Tree}
    {more : List Visit} (hmachine : machine.Progressive) (hform : first.Moves)
    (hfruitful : first.FruitfulAt (machine.next entry))
    (hfirst : machine.Runs first entry (.ok trees) mid visits)
    (hsecond : machine.Runs second mid result stop more)
    (hentry : entry.pos < machine.tokens.length) :
    ∀ earlier ∈ visits, ∀ later ∈ more, earlier.Precedes later := by
  intro earlier hearlier later hlater hadvances _
  obtain ⟨inner, hrun⟩ := hfirst.of_mem hearlier
  have hstop := (hfirst.between earlier hearlier).2
  have hlength : earlier.entry.pos < machine.tokens.length :=
    Nat.lt_of_le_of_lt (Nat.le_trans hrun.pos_le hstop) (hfirst.pos_lt_length hentry)
  have hmoves := (hfirst.moves_of_mem hmachine hform hfruitful earlier hearlier).1
  calc earlier.entry.pos
      < earlier.stop.pos := hrun.pos_lt_of_advancesAt hmachine hmoves hlength
        (hfirst.isOk_of_mem rfl hearlier) (hadvances _)
    _ ≤ mid.pos := hstop
    _ ≤ later.entry.pos := (hsecond.between later hlater).1

/-- **A form that takes tokens is entered again only behind the token of its last entry.** -/
theorem Runs.pairwise_precedes (hmachine : machine.Progressive) (hform : form.Moves)
    (hfruitful : form.FruitfulAt (machine.next entry))
    (h : machine.Runs form entry result stop visits) (hentry : entry.pos < machine.tokens.length) :
    visits.Pairwise Visit.Precedes := by
  have hwhole := h
  induction h with
  | empty | token | refused | refuse | whileEnds | tooDeep => exact List.pairwise_singleton _ _
  | seqFails hrun ih | extendFails hrun ih | extendStops hrun _ ih =>
    exact List.pairwise_cons.mpr ⟨hwhole.precedes_of_mem hmachine hform hentry,
      ih hform.1 hfruitful.1 hentry hrun⟩
  | whileFails _ hrun ih =>
    exact List.pairwise_cons.mpr ⟨hwhole.precedes_of_mem hmachine hform hentry,
      ih hform.2 (hfruitful _) hentry hrun⟩
  | @ifAt look _ _ here _ _ _ hrun ih =>
    refine List.pairwise_cons.mpr ⟨hwhole.precedes_of_mem hmachine hform hentry, ?_⟩
    cases hlook : look.holds (machine.ahead here) <;>
      simp only [hlook, Bool.false_eq_true, ↓reduceIte] at ih hrun
    · exact ih hform.2 hfruitful.2 hentry hrun
    · exact ih hform.1 (hfruitful.1 (test_of_holds hlook)) hentry hrun
  | deeper _ hrun _ ih =>
    exact List.pairwise_cons.mpr ⟨hwhole.precedes_of_mem hmachine hform hentry,
      ih (hmachine.moves _) (hmachine.fruitful _ _) hentry hrun⟩
  | seq hfirst hsecond _ ihfirst ihsecond =>
    exact List.pairwise_cons.mpr ⟨hwhole.precedes_of_mem hmachine hform hentry,
      List.pairwise_append.mpr ⟨ihfirst hform.1 hfruitful.1 hentry hfirst,
        ihsecond hform.2 (hfruitful.2 _) (hfirst.pos_lt_length hentry) hsecond,
        hfirst.precedes_of_returned hmachine hform.1 hfruitful.1 hsecond hentry⟩⟩
  | extendGoes hfirst _ hrest _ _ ihfirst ihrest =>
    exact List.pairwise_cons.mpr ⟨hwhole.precedes_of_mem hmachine hform hentry,
      List.pairwise_append.mpr ⟨ihfirst hform.1 hfruitful.1 hentry hfirst,
        ihrest hform.2 (hfruitful.2.1 _) (hfirst.pos_lt_length hentry) hrest,
        hfirst.precedes_of_returned hmachine hform.1 hfruitful.1 hrest hentry⟩⟩
  | whileGoes _ hbody hmore _ ihbody ihmore =>
    exact List.pairwise_cons.mpr ⟨hwhole.precedes_of_mem hmachine hform hentry,
      List.pairwise_append.mpr ⟨ihbody hform.2 (hfruitful _) hentry hbody,
        ihmore hform hfruitful (hbody.pos_lt_length hentry) hmore,
        hbody.precedes_of_returned hmachine hform.2 (hfruitful _) hmore hentry⟩⟩

end Machine

end SqlFront.Grammar
