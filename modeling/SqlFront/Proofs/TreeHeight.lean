import SqlFront.Proofs.ParserBatch
import SqlFront.Proofs.Reading

/-!
How high parse trees get within the levels of nesting.

Inside one construct a tree rises by the productions that contain each other there, which are a
fixed number however many parts the construct has. It rises further only in another construct, and
each of these takes a level.
-/

namespace SqlFront

namespace Tree

mutual

/-- The most trees on a path from the top of a tree downwards. -/
def height : Tree → Nat
  | leaf _ => 1
  | node _ _ children => heightOf children + 1

/-- The most trees on a path through one of some trees. -/
def heightOf : List Tree → Nat
  | [] => 0
  | tree :: trees => max (height tree) (heightOf trees)

end

theorem heightOf_le {bound : Nat} {trees : List Tree} :
    heightOf trees ≤ bound ↔ ∀ tree ∈ trees, tree.height ≤ bound := by
  induction trees with
  | nil => simp [heightOf]
  | cons tree trees ih => rw [heightOf, Nat.max_le, ih, List.forall_mem_cons]

@[simp]
theorem height_ofParts (rule : Rule) (parts : List Tree) :
    (ofParts rule parts).height = heightOf parts + 1 :=
  rfl

end Tree

namespace Grammar

variable {enter : Construct → Reader} {form first second : Form} {inner : Nat}

/-- How high the trees of a form get, where those of a construct get as high as `inner`. -/
def Form.rise (inner : Nat) : Form → Nat
  | .empty | .refuse _ => 0
  | .token _ _ => 1
  | .seq first second | .ifAt _ first second => max (first.rise inner) (second.rise inner)
  | .whileAt _ body => body.rise inner
  | .extend first _ rest => max (first.rise inner) (rest.rise inner) + 1
  | .deeper _ => inner

/-- A construct inside a form makes it higher by its own height at most. -/
theorem Form.rise_le (form : Form) (inner : Nat) : form.rise inner ≤ form.rise 0 + inner := by
  induction form with
  | empty | refuse => exact Nat.zero_le _
  | token => exact Nat.le_add_right _ _
  | deeper => exact Nat.le_add_left _ _
  | seq first second ihfirst ihsecond | ifAt _ first second ihfirst ihsecond =>
    simp only [rise]
    omega
  | whileAt _ body ih => exact ih
  | extend first _ rest ihfirst ihrest =>
    simp only [rise]
    omega

/-- Each tree of the form is as high as this at most. -/
abbrev Form.UpTo (enter : Construct → Reader) (bound : Nat) (form : Form) : Prop :=
  form.Each enter (·.height ≤ bound)

theorem Form.UpTo.mono {low high : Nat} (h : form.UpTo enter low) (hle : low ≤ high) :
    form.UpTo enter high :=
  fun trees hyields tree hmem => Nat.le_trans (h trees hyields tree hmem) hle

theorem Form.UpTo.extend {bound : Nat} {rule : Token → Token → Option Rule}
    (hfirst : first.UpTo enter bound) (hsecond : second.UpTo enter bound) :
    (Form.extend first rule second).UpTo enter (bound + 1) := by
  intro trees hyields tree hmem
  rcases hyields.extend with hyields | ⟨_, _, made, left, right, -, hleft, hright, rfl⟩
  · exact Nat.le_succ_of_le (hfirst trees hyields tree hmem)
  · obtain rfl := List.mem_singleton.mp hmem
    rw [Tree.height_ofParts]
    exact Nat.succ_le_succ (Tree.heightOf_le.mpr (hfirst.parts hsecond hleft hright))

/-- The trees of a form get no higher than the form rises. -/
theorem Form.upTo_rise (henter : ∀ construct, (Form.deeper construct).UpTo enter inner)
    (form : Form) : form.UpTo enter (form.rise inner) := by
  induction form with
  | empty => exact .empty
  | token => exact .token fun _ _ => Nat.le_refl _
  | refuse => exact .refuse
  | seq first second ihfirst ihsecond =>
    exact .seq (ihfirst.mono (Nat.le_max_left _ _)) (ihsecond.mono (Nat.le_max_right _ _))
  | ifAt _ yes no ihyes ihno =>
    exact .ifAt (ihyes.mono (Nat.le_max_left _ _)) (ihno.mono (Nat.le_max_right _ _))
  | whileAt _ body ih => exact .whileAt ih
  | extend first _ rest ihfirst ihrest =>
    exact .extend (ihfirst.mono (Nat.le_max_left _ _)) (ihrest.mono (Nat.le_max_right _ _))
  | deeper construct => exact henter construct

/-- A construct whose body rises by `step` at most gets no higher than that for each level. -/
theorem deeper_upTo {bodies : Construct → Form} {step : Nat}
    (hbodies : ∀ construct, (bodies construct).rise 0 ≤ step) (limit levels : Nat)
    (construct : Construct) :
    (Form.deeper construct).UpTo (Grammar.enter bodies limit levels) (step * levels) := by
  induction levels generalizing construct with
  | zero =>
    rintro trees ⟨input, rest, hread⟩
    cases hread
  | succ levels ih =>
    intro trees hyields tree hmem
    calc tree.height
        ≤ (bodies construct).rise (step * levels) :=
          Form.upTo_rise ih (bodies construct) trees hyields tree hmem
      _ ≤ (bodies construct).rise 0 + step * levels := Form.rise_le _ _
      _ ≤ step + step * levels := Nat.add_le_add_right (hbodies construct) _
      _ = step * (levels + 1) := by rw [Nat.mul_succ, Nat.add_comm]

/-- The productions of one construct contain each other up to a height of fourteen. -/
theorem bodies_rise (dialect : Dialect) (construct : Construct) :
    (bodies dialect construct).rise 0 ≤ 14 := by
  cases dialect <;> cases construct <;> decide

theorem batch_rise (dialect : Dialect) : (batch dialect).rise 0 ≤ 14 := by
  have hstatement : (statement dialect).rise 0 ≤ 14 := bodies_rise dialect .bypassed
  simp only [batch, semicolons, Form.rise, Form.symbol, Form.unexpected]
  omega

/-- **The levels of nesting bound the height of a parse tree**, however long the text is. -/
theorem height_of_readBatch {dialect : Dialect} {limit : Nat} {input : List Lexeme} {tree : Tree}
    (h : readBatch dialect limit input = .ok tree) : tree.height ≤ 14 * limit + 15 := by
  rw [readBatch_eq, map_eq_ok] at h
  obtain ⟨parts, hread, rfl⟩ := h
  have hparts := Form.upTo_rise (deeper_upTo (bodies_rise dialect) limit limit) (batch dialect)
    parts.1 ⟨input, parts.2, hread⟩
  have hrise := Form.rise_le (batch dialect) (14 * limit)
  have hbatch := batch_rise dialect
  have hheight := Tree.heightOf_le.mpr hparts
  rw [Tree.height_ofParts]
  omega

end Grammar

end SqlFront
