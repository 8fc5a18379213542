import SqlFront.Proofs.ExpressionShape

/-!
The shapes of queries and of the statements that change rows.
-/

namespace SqlFront.Grammar

open SqlFront.Tree Form

variable {enter : Construct → Reader} (dialect : Dialect)

/-! ### Row limits -/

theorem rowCount_has : rowCount.Has enter (isTokenOf isRowCount) :=
  .token fun _ haccepts => haccepts

theorem rowCount_sound : rowCount.Sound enter := .token rfl

theorem topClause_makes : topClause.Makes enter (hasRule .topClause) := by
  refine .node (.seq (.token rfl) (.seq (.ifAt ?_ rowCount_sound) (.optional (.token rfl))))
    (Has.right (Has.left (.ifAt (Has.right (Has.left rowCount_has)) rowCount_has)))
  exact .seq (.token rfl) (.seq rowCount_sound (.token rfl))

/-- A token that is no count, and a count after it. -/
theorem count_after {accepts : Token → Bool} {wanted : String} {trees : List Tree}
    (hother : ∀ token, accepts token → isRowCount token = false)
    (hyields : (Form.seq (.token accepts wanted) rowCount).Yields enter trees) :
    trees.countP (isTokenOf isRowCount) = 1 := by
  obtain ⟨_, _, hword, hcount, rfl⟩ := hyields.seq
  obtain ⟨word, rfl, haccepts⟩ := hword.token
  obtain ⟨count, rfl, hrow⟩ := hcount.token
  have hone : isRowCount count.token := hrow
  simp [hother word.token haccepts, hone]

theorem isRowCount_of_eq_keyword {k : Keyword} {token : Token} (h : token == .keyword k) :
    isRowCount token = false := by
  obtain rfl := eq_of_beq h
  rfl

theorem isRowCount_of_eq_symbol {s : Symbol} {token : Token} (h : token == .symbol s) :
    isRowCount token = false := by
  obtain rfl := eq_of_beq h
  rfl

theorem offset_sound : (offset dialect).Sound enter := by
  have hnamed : (Form.optional [isKeyword .OFFSET] (.seq (.keyword .OFFSET) rowCount)).Sound
      enter := .optional (.seq (.token rfl) rowCount_sound)
  unfold offset
  split
  · exact .ifAt (.seq (.token rfl) rowCount_sound) hnamed
  · exact hnamed

theorem offset_count {trees : List Tree} (hyields : (offset dialect).Yields enter trees) :
    trees.countP (isTokenOf isRowCount) = 0 ∨ trees.countP (isTokenOf isRowCount) = 1 := by
  have hnamed (hyields : (Form.optional [isKeyword .OFFSET]
      (.seq (.keyword .OFFSET) rowCount)).Yields enter trees) :
      trees.countP (isTokenOf isRowCount) = 0 ∨ trees.countP (isTokenOf isRowCount) = 1 := by
    rcases hyields.optional with hyields | rfl
    · exact .inr (count_after (fun _ => isRowCount_of_eq_keyword) hyields)
    · exact .inl rfl
  unfold offset at hyields
  split at hyields
  · rcases hyields.ifAt with hyields | hyields
    · exact .inr (count_after (fun _ => isRowCount_of_eq_symbol) hyields)
    · exact hnamed hyields
  · exact hnamed hyields

theorem limitClause_makes : (limitClause dialect).Makes enter (hasRule .limitClause) := by
  refine .node (.seq (.token rfl) (.seq rowCount_sound (offset_sound dialect))) ?_
  intro parts hyields
  obtain ⟨_, _, hword, hcounts, rfl⟩ := hyields.seq
  obtain ⟨_, offsets, hcount, hoffsets, rfl⟩ := hcounts.seq
  obtain ⟨word, rfl, hlimit⟩ := hword.token
  obtain ⟨count, rfl, hrow⟩ := hcount.token
  have hone : isRowCount count.token := hrow
  have hoffset := offset_count dialect hoffsets
  simp only [Rule.Shape, List.countP_append, List.countP_singleton, isTokenOf_leaf,
    isRowCount_of_eq_keyword hlimit, hone, Bool.false_eq_true, reduceIte]
  omega

/-! ### The clauses of a query -/

section

variable (h : Regular enter)
include h

theorem selectItem_makes : selectItem.Makes enter (hasRule .selectItem) := by
  have hstar : (Form.node .allColumns (.symbol .star)).Makes enter (hasRule .allColumns) :=
    .node (.token rfl) fun _ => Has.ne_nil .self
  refine .node (.ifAt hstar.sound (.seq (expression_makes h).sound alias?_sound)) ?_
  exact Has.ifAt (hstar.has.mono (isExpression_of_hasRule rfl)) (Has.left (expression_makes h).has)

theorem selectList_makes : selectList.Makes enter (hasRule .selectList) :=
  .node (.commaList (selectItem_makes h).sound)
    fun _ => Has.ne_nil (Has.left (selectItem_makes h).has)

theorem tablePrimary_makes : tablePrimary.Makes enter isTable :=
  .ifAt ((h.makes rfl).mono (either_of_right _)) (aliasedTable_makes.mono (either_of_left _))

omit h in
theorem joinSide_sound : joinSide.Sound enter :=
  .ifAt (.token rfl) (.optional (.seq (.token rfl) (.optional (.token rfl))))

theorem joinCondition_makes :
    (Form.node .joinCondition (.seq (.keyword .ON) expression)).Makes enter
      (hasRule .joinCondition) :=
  .node (.seq (.token rfl) (expression_makes h).sound) (Has.right (expression_makes h).has)

theorem join_makes : join.Makes enter (hasRule .joinClause) := by
  have htable := tablePrimary_makes h
  refine .node (.ifAt (.seq (.token rfl) (.seq (.token rfl) htable.sound)) ?_)
    (Has.ifAt (Has.right (Has.right htable.has)) (Has.right (Has.right (Has.left htable.has))))
  exact .seq joinSide_sound <| .seq (.token rfl) <|
    .seq htable.sound (joinCondition_makes h).sound

theorem tableSource_makes : tableSource.Makes enter (hasRule .tableSource) := by
  refine .node (.seq (tablePrimary_makes h).sound (.whileAt (join_makes h).sound)) ?_
  intro parts hyields
  obtain ⟨_, joins, htable, -, rfl⟩ := hyields.seq
  obtain ⟨table, rfl, hkind, -⟩ := tablePrimary_makes h _ htable
  exact ⟨table, joins, rfl, hkind⟩

theorem fromClause_makes : fromClause.Makes enter (hasRule .fromClause) :=
  .node (.seq (.token rfl) (.commaList (tableSource_makes h).sound))
    fun _ => Has.ne_nil (Has.left .self)

theorem whereClause?_sound : whereClause?.Sound enter := by
  have hclause : (Form.node .whereClause (.seq (.keyword .WHERE) expression)).Makes enter
      (hasRule .whereClause) :=
    .node (.seq (.token rfl) (expression_makes h).sound) (Has.right (expression_makes h).has)
  exact .optional hclause.sound

theorem groupByClause_makes : groupByClause.Makes enter (hasRule .groupByClause) :=
  .node (.seq (.token rfl) (.seq (.token rfl) (.commaList (expression_makes h).sound)))
    fun _ => Has.ne_nil (Has.left .self)

theorem havingClause_makes : havingClause.Makes enter (hasRule .havingClause) :=
  .node (.seq (.token rfl) (expression_makes h).sound) (Has.right (expression_makes h).has)

theorem orderByClause_makes : orderByClause.Makes enter (hasRule .orderByClause) := by
  have hitem : (Form.node .orderItem (.seq expression direction)).Makes enter
      (hasRule .orderItem) :=
    .node (.seq (expression_makes h).sound direction_sound) (Has.left (expression_makes h).has)
  exact .node (.seq (.token rfl) (.seq (.token rfl) (.commaList hitem.sound)))
    fun _ => Has.ne_nil (Has.left .self)

omit h in
theorem when_sound {available : Bool} {form : Form} (hform : form.Sound enter) :
    (when available form).Sound enter := by
  unfold when
  split
  · exact hform
  · exact .empty

/-- **A query is one well-formed tree.** -/
theorem select_makes : (select dialect).Makes enter (hasRule .selectStatement) := by
  refine .node ?_ (Has.right (Has.right (Has.right (Has.left (selectList_makes h).has))))
  exact .seq (.token rfl) <|
    .seq (.optional (.token rfl)) <|
    .seq (when_sound (.optional topClause_makes.sound)) <|
    .seq (selectList_makes h).sound <|
    .seq (.optional (fromClause_makes h).sound) <|
    .seq (whereClause?_sound h) <|
    .seq (.optional (groupByClause_makes h).sound) <|
    .seq (.optional (havingClause_makes h).sound) <|
    .seq (.optional (orderByClause_makes h).sound) <|
    when_sound (.optional (limitClause_makes dialect).sound)

/-! ### Queries in parentheses -/

theorem subqueryBody_makes : (subqueryBody dialect).Makes enter (hasRule .subquery) :=
  .node (.seq (.token rfl) (.seq (select_makes dialect h).sound (.token rfl)))
    fun _ => Has.ne_nil (Has.left .self)

omit h in
/-- The end of a derived table is an alias, since nothing else is let through. -/
theorem derivedTableAlias_has :
    (Form.ifAt [fun token => isKeyword .AS token || token.isName] alias?
      (.refuse fun _ => .derivedTableAlias)).Has enter (hasRule .aliasClause) := by
  rintro trees ⟨input, rest, hread⟩
  rcases read_ifAt_eq_ok hread with ⟨hstart, hread⟩ | ⟨-, hread⟩
  · rcases read_ifAt_eq_ok hread with ⟨-, hread⟩ | ⟨has, hread⟩
    · exact (aliasClause_makes (.seq (.token rfl) name_sound) (Has.right name_has)).has trees
        ⟨input, rest, hread⟩
    · rcases read_ifAt_eq_ok hread with ⟨-, hread⟩ | ⟨hname, -⟩
      · exact (aliasClause_makes name_sound name_has).has trees ⟨input, rest, hread⟩
      · rw [holds_single] at hstart has hname
        simp [has, hname] at hstart
  · cases hread

theorem derivedTableBody_makes :
    (derivedTableBody dialect).Makes enter (hasRule .derivedTable) := by
  have hselect := select_makes dialect h
  refine .node (.seq (.token rfl) (.seq hselect.sound (.seq (.token rfl) (.ifAt alias?_sound
    .refuse)))) ?_
  intro parts hyields
  constructor
  · exact Has.right (Has.left hselect.has) parts hyields
  · exact Has.right (Has.right (Has.right derivedTableAlias_has)) parts hyields

/-! ### Changes of rows -/

theorem valuesClause_makes : valuesClause.Makes enter (hasRule .valuesClause) :=
  .node (.seq (.token rfl) (.commaList (h.sound _))) fun _ => Has.ne_nil (Has.left .self)

theorem insert_makes : (insert dialect).Makes enter (hasRule .insertStatement) := by
  have hselect := select_makes dialect h
  have hvalues := valuesClause_makes h
  refine .node (.seq (.token rfl) (.seq (.optional (.token rfl)) (.seq tableName_makes.sound
    (.seq (.optional (h.sound _)) (.ifAt hselect.sound hvalues.sound))))) ?_
  intro parts hyields
  constructor
  · exact Has.right (Has.right (Has.left tableName_makes.has)) parts hyields
  · exact Has.right (Has.right (Has.right (Has.right (Has.ofSides hselect.has hvalues.has))))
      parts hyields

theorem assignment_makes : assignment.Makes enter (hasRule .assignment) := by
  refine .node (.seq columnName_makes.sound (.seq (.token rfl) (expression_makes h).sound))
    fun parts hyields => ⟨Has.left columnName_makes.has parts hyields, ?_⟩
  obtain ⟨column, _, -, hrest, rfl⟩ := hyields.seq
  obtain ⟨sign, _, -, hvalue, rfl⟩ := hrest.seq
  obtain ⟨value, rfl, hexpression, -⟩ := expression_makes h _ hvalue
  exact ⟨column ++ sign, value, by simp, hexpression⟩

theorem update_makes : update.Makes enter (hasRule .updateStatement) :=
  .node (.seq (.token rfl) (.seq aliasedTable_makes.sound (.seq (.token rfl)
    (.seq (.commaList (assignment_makes h).sound) (whereClause?_sound h)))))
    (Has.right (Has.left aliasedTable_makes.has))

theorem delete_makes : delete.Makes enter (hasRule .deleteStatement) :=
  .node (.seq (.token rfl) (.seq (.optional (.token rfl)) (.seq aliasedTable_makes.sound
    (whereClause?_sound h)))) (Has.right (Has.right (Has.left aliasedTable_makes.has)))

end

end SqlFront.Grammar
