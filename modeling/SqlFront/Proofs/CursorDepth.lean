import SqlFront.Proofs.Cursor

/-!
The counter of open levels.

Every construct closes the level that it opened, whether it succeeds or fails. What follows an
operator of a sum or a product leaves its level open, and the chain that it belongs to closes them
all.
-/

namespace SqlFront.Grammar

/-- The form may return with more open levels than there were when it was entered. -/
def Form.leavesOpen : Form → Bool
  | .seq _ second => second.leavesOpen
  | .ifAt _ yes no => yes.leavesOpen || no.leavesOpen
  | .deeper construct => construct.isTail
  | _ => false

/-- Levels are left open only at the end of a round of a loop over operators, and the loop closes
them. -/
def Form.balanced : Form → Bool
  | .seq first second => !first.leavesOpen && first.balanced && second.balanced
  | .ifAt _ yes no => yes.balanced && no.balanced
  | .whileAt _ body => !body.leavesOpen && body.balanced
  | .extend first _ rest =>
      !first.leavesOpen && (rest.isTail || !rest.leavesOpen) && first.balanced && rest.balanced
  | _ => true

namespace Machine

variable {machine : Machine} {form : Form} {entry stop : Cursor} {result : Result}
  {visits : List Visit}

/-- The constructs close the levels that they open. -/
structure Balanced (machine : Machine) : Prop where
  balanced : ∀ construct, (machine.bodies construct).balanced
  closes : ∀ construct, construct.isTail = false → (machine.bodies construct).leavesOpen = false

theorem depth_advance (here : Cursor) : (machine.advance here).depth = here.depth := by
  unfold advance
  split <;> rfl

/-- **The counter never leaks**: a form that leaves no level open returns with the levels that were
open when it was entered, on success and on failure. -/
theorem Runs.depth_eq (hbodies : machine.Balanced) (hform : form.balanced)
    (hcloses : form.leavesOpen = false) (h : machine.Runs form entry result stop visits) :
    stop.depth = entry.depth := by
  induction h with
  | token => exact depth_advance _
  | empty | refused | refuse | whileEnds | tooDeep => rfl
  | seqFails _ ih | extendFails _ ih | extendStops _ _ ih =>
    simp_all [Form.balanced, Form.leavesOpen]
  | ifAt _ ih =>
    simp only [Form.leavesOpen, Form.balanced, Bool.or_eq_false_iff, Bool.and_eq_true]
      at hform hcloses
    apply ih <;> split <;> simp_all
  | whileFails _ _ ih => simp_all [Form.balanced, Form.leavesOpen]
  | seq _ _ _ ihfirst ihsecond | whileGoes _ _ _ _ ihfirst ihsecond =>
    simp_all [Form.balanced, Form.leavesOpen]
  | extendGoes _ _ _ _ hstop ihfirst ihrest =>
    subst hstop
    unfold ended
    split <;> simp_all [Form.balanced, Form.leavesOpen]
  | deeper _ _ hstop ih =>
    subst hstop
    have hout := ih (hbodies.balanced _) (hbodies.closes _ hcloses)
    simp_all [left, opened, Form.leavesOpen]

/-- The levels of a run that is entered within the limit are within the limit. -/
theorem Runs.depth_le (h : machine.Runs form entry result stop visits)
    (hentry : entry.depth ≤ machine.limit) :
    stop.depth ≤ machine.limit ∧
      ∀ visit ∈ visits, visit.entry.depth ≤ machine.limit ∧ visit.stop.depth ≤ machine.limit := by
  induction h with
  | token => simp [depth_advance, hentry]
  | empty | refused | refuse | whileEnds | tooDeep => simp [hentry]
  | seqFails _ ih | extendFails _ ih | extendStops _ _ ih | whileFails _ _ ih | ifAt _ ih =>
    obtain ⟨hstop, hvisits⟩ := ih hentry
    exact ⟨hstop, List.forall_mem_cons.mpr ⟨⟨hentry, hstop⟩, hvisits⟩⟩
  | seq _ _ _ ihfirst ihsecond | whileGoes _ _ _ _ ihfirst ihsecond =>
    obtain ⟨hmid, hvisits⟩ := ihfirst hentry
    obtain ⟨hstop, hmore⟩ := ihsecond hmid
    exact ⟨hstop, List.forall_mem_cons.mpr
      ⟨⟨hentry, hstop⟩, List.forall_mem_append.mpr ⟨hvisits, hmore⟩⟩⟩
  | @extendGoes _ rest _ _ mid out _ _ _ _ _ _ _ _ _ _ _ hstop ihfirst ihrest =>
    obtain ⟨hmid, hvisits⟩ := ihfirst hentry
    obtain ⟨hout, hmore⟩ := ihrest hmid
    have hended : (ended rest mid out).depth ≤ machine.limit := by
      unfold ended
      split
      · exact hmid
      · exact hout
    rw [← hstop] at hended
    exact ⟨hended, List.forall_mem_cons.mpr
      ⟨⟨hentry, hended⟩, List.forall_mem_append.mpr ⟨hvisits, hmore⟩⟩⟩
  | @deeper construct _ out _ _ _ hroom _ hstop ih =>
    obtain ⟨hout, hvisits⟩ := ih hroom
    have hleft : (left construct out).depth ≤ machine.limit := by
      unfold left
      split
      · exact hout
      · exact Nat.le_trans (Nat.sub_le _ _) hout
    rw [← hstop] at hleft
    exact ⟨hleft, List.forall_mem_cons.mpr ⟨⟨hentry, hleft⟩, hvisits⟩⟩

end Machine

end SqlFront.Grammar
