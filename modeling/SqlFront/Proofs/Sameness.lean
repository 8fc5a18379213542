import SqlFront.Proofs.View

/-!
What looks alike without aliases is the same.

The equality of queries does not look at the aliases of expressions. So queries that have the same
look when no alias is seen are equal in that sense.
-/

namespace SqlFront

/-! ### Lists and options -/

section

variable {α β : Type} {look : α → β} {same : α → α → Bool}

theorem isEqv_of_map_eq {xs ys : List α} (h : xs.map look = ys.map look)
    (hsame : ∀ x y, look x = look y → same x y) : xs.isEqv ys same := by
  induction xs generalizing ys with
  | nil =>
    cases ys with
    | nil => rfl
    | cons y ys => cases h
  | cons x xs ih =>
    cases ys with
    | nil => cases h
    | cons y ys =>
      obtain ⟨hfirst, hrest⟩ := List.cons.inj h
      rw [List.isEqv, Bool.and_eq_true]
      exact ⟨hsame x y hfirst, ih hrest⟩

theorem sameOption_of_map_eq {x y : Option α} (h : x.map look = y.map look)
    (hsame : ∀ x y, look x = look y → same x y) : sameOption same x y := by
  cases x with
  | none =>
    cases y with
    | none => rfl
    | some y => cases h
  | some x =>
    cases y with
    | none => cases h
    | some y => exact hsame x y (Option.some.inj h)

end

/-! ### Expressions -/

theorem Decimal.same_refl (d : Decimal) : d.same d := beq_self_eq_true _

theorem Constant.same_refl (value : Constant) : value.same value := by
  cases value with
  | decimal d => exact d.same_refl
  | _ => simp [same]

theorem Constant.seen_withoutAliases (value : Constant) : value.seen .withoutAliases = value := by
  cases value <;> rfl

theorem Constant.same_of_seen (x y : Constant)
    (h : x.seen .withoutAliases = y.seen .withoutAliases) : x.same y := by
  rw [seen_withoutAliases, seen_withoutAliases] at h
  exact h ▸ x.same_refl

namespace Expr

mutual

/-- Expressions that look alike without their aliases are the same. -/
theorem same_of_seen (x y : Expr) (h : x.seen .withoutAliases = y.seen .withoutAliases) :
    x.same y := by
  cases x with
  | column a c =>
    cases y with
    | column a' c' =>
      injection h with _ hc
      simp [same, hc]
    | _ => cases h
  | constant a v =>
    cases y with
    | constant a' v' =>
      injection h with _ hv
      exact v.same_of_seen v' hv
    | _ => cases h
  | call a f args =>
    cases y with
    | call a' f' args' =>
      injection h with _ hf hargs
      simp [same, hf, sameAll_of_seen args args' hargs]
    | _ => cases h
  | aggregate a f d args =>
    cases y with
    | aggregate a' f' d' args' =>
      injection h with _ hf hd hargs
      simp [same, hf, hd, sameAll_of_seen args args' hargs]
    | _ => cases h
  | arithmetic a op l r =>
    cases y with
    | arithmetic a' op' l' r' =>
      injection h with _ hop hl hr
      simp [same, hop, same_of_seen l l' hl, same_of_seen r r' hr]
    | _ => cases h
  | compare a n op l r =>
    cases y with
    | compare a' n' op' l' r' =>
      injection h with _ hn hop hl hr
      simp [same, hn, hop, same_of_seen l l' hl, same_of_seen r r' hr]
    | _ => cases h
  | inList a n c vs =>
    cases y with
    | inList a' n' c' vs' =>
      injection h with _ hn hc hvs
      simp [same, hn, hc, isEqv_of_map_eq hvs Constant.same_of_seen]
    | _ => cases h
  | isNull a n c =>
    cases y with
    | isNull a' n' c' =>
      injection h with _ hn hc
      simp [same, hn, hc]
    | _ => cases h
  | like a n c p e =>
    cases y with
    | like a' n' c' p' e' =>
      injection h with _ hn hc hp he
      simp [same, hn, hc, p.same_of_seen p' hp, he]
    | _ => cases h
  | allColumns a t =>
    cases y with
    | allColumns a' t' =>
      injection h with _ ht
      simp [same, ht]
    | _ => cases h
  | and a l r =>
    cases y with
    | and a' l' r' =>
      injection h with _ hl hr
      simp [same, same_of_seen l l' hl, same_of_seen r r' hr]
    | _ => cases h
  | or a l r =>
    cases y with
    | or a' l' r' =>
      injection h with _ hl hr
      simp [same, same_of_seen l l' hl, same_of_seen r r' hr]
    | _ => cases h
termination_by sizeOf x

theorem sameAll_of_seen (xs ys : List Expr)
    (h : seenAll .withoutAliases xs = seenAll .withoutAliases ys) : sameAll xs ys := by
  cases xs with
  | nil =>
    cases ys with
    | nil => rfl
    | cons y ys => cases h
  | cons x xs =>
    cases ys with
    | nil => cases h
    | cons y ys =>
      injection h with hfirst hrest
      simp [sameAll, same_of_seen x y hfirst, sameAll_of_seen xs ys hrest]
termination_by sizeOf xs

end

theorem sameAll_of_map_eq (xs ys : List Expr)
    (h : xs.map (seen .withoutAliases) = ys.map (seen .withoutAliases)) : sameAll xs ys := by
  rw [← seenAll_eq_map, ← seenAll_eq_map] at h
  exact sameAll_of_seen xs ys h

end Expr

theorem Disjunction.same_of_seen (x y : Disjunction)
    (h : x.seen .withoutAliases = y.seen .withoutAliases) : x.same y := by
  injection h with hpredicates
  exact Expr.sameAll_of_map_eq _ _ hpredicates

theorem Cnf.same_of_seen (x y : Cnf) (h : x.seen .withoutAliases = y.seen .withoutAliases) :
    x.same y := by
  injection h with hclauses
  exact isEqv_of_map_eq hclauses Disjunction.same_of_seen

/-! ### Queries -/

theorem OrderItem.same_of_seen (x y : OrderItem)
    (h : x.seen .withoutAliases = y.seen .withoutAliases) : x.same y := by
  injection h with hexpression hdirection
  rw [same, Bool.and_eq_true]
  exact ⟨Expr.same_of_seen _ _ hexpression, beq_iff_eq.mpr hdirection⟩

mutual

theorem SelectQuery.same_of_seen (x y : SelectQuery)
    (h : x.seen .withoutAliases = y.seen .withoutAliases) : x.same y := by
  cases x with
  | mk distinct items sources condition grouping having ordering limit =>
    cases y with
    | mk distinct' items' sources' condition' grouping' having' ordering' limit' =>
      injection h with hdistinct hitems hsources hcondition hgrouping hhaving hordering hlimit
      simp only [SelectQuery.same, Bool.and_eq_true, beq_iff_eq]
      exact ⟨⟨⟨⟨⟨⟨⟨hdistinct, Expr.sameAll_of_map_eq _ _ hitems⟩,
        sameSources_of_seen sources sources' hsources⟩,
        sameOption_of_map_eq hcondition Cnf.same_of_seen⟩,
        sameOption_of_map_eq hgrouping Expr.sameAll_of_map_eq⟩,
        sameOption_of_map_eq hhaving Cnf.same_of_seen⟩,
        isEqv_of_map_eq hordering OrderItem.same_of_seen⟩, hlimit⟩
termination_by sizeOf x

theorem sameSources_of_seen (xs ys : List FromItem)
    (h : FromItem.seenAll .withoutAliases xs = FromItem.seenAll .withoutAliases ys) :
    sameSources xs ys := by
  cases xs with
  | nil =>
    cases ys with
    | nil => rw [sameSources]
    | cons y ys => cases h
  | cons x xs =>
    cases ys with
    | nil => cases h
    | cons y ys =>
      injection h with hfirst hrest
      rw [sameSources, Bool.and_eq_true]
      exact ⟨FromItem.same_of_seen x y hfirst, sameSources_of_seen xs ys hrest⟩
termination_by sizeOf xs

theorem FromItem.same_of_seen (x y : FromItem)
    (h : x.seen .withoutAliases = y.seen .withoutAliases) : x.same y := by
  cases x with
  | mk source joins =>
    cases y with
    | mk source' joins' =>
      injection h with hsource hjoins
      rw [FromItem.same, Bool.and_eq_true]
      exact ⟨TableSource.same_of_seen source source' hsource,
        sameJoins_of_seen joins joins' hjoins⟩
termination_by sizeOf x

theorem sameJoins_of_seen (xs ys : List Join)
    (h : Join.seenAll .withoutAliases xs = Join.seenAll .withoutAliases ys) :
    sameJoins xs ys := by
  cases xs with
  | nil =>
    cases ys with
    | nil => rw [sameJoins]
    | cons y ys => cases h
  | cons x xs =>
    cases ys with
    | nil => cases h
    | cons y ys =>
      injection h with hfirst hrest
      rw [sameJoins, Bool.and_eq_true]
      exact ⟨Join.same_of_seen x y hfirst, sameJoins_of_seen xs ys hrest⟩
termination_by sizeOf xs

theorem Join.same_of_seen (x y : Join) (h : x.seen .withoutAliases = y.seen .withoutAliases) :
    x.same y := by
  cases x with
  | mk kind source condition =>
    cases y with
    | mk kind' source' condition' =>
      injection h with hkind hsource hcondition
      simp only [Join.same, Bool.and_eq_true, beq_iff_eq]
      exact ⟨⟨hkind, TableSource.same_of_seen source source' hsource⟩,
        sameOption_of_map_eq hcondition Cnf.same_of_seen⟩
termination_by sizeOf x

theorem TableSource.same_of_seen (x y : TableSource)
    (h : x.seen .withoutAliases = y.seen .withoutAliases) : x.same y := by
  cases x with
  | table table =>
    cases y with
    | table table' =>
      injection h with htable
      rw [TableSource.same, htable]
      exact beq_self_eq_true _
    | derived query name => cases h
  | derived query name =>
    cases y with
    | table table => cases h
    | derived query' name' =>
      injection h with hquery hname
      rw [TableSource.same, Bool.and_eq_true]
      exact ⟨SelectQuery.same_of_seen query query' hquery, beq_iff_eq.mpr hname⟩
termination_by sizeOf x

end

theorem ColumnDefinition.same_of_seen (x y : ColumnDefinition)
    (h : x.seen .withoutAliases = y.seen .withoutAliases) : x.same y := by
  injection h with hname htype hlength hscale hnullable hencryption hdefault hautoIncrement
    hmembers hprimaryKey hunique
  have hvalue := sameOption_of_map_eq hdefault Expr.same_of_seen
  simp only [same, Bool.and_eq_true, beq_iff_eq]
  refine ⟨⟨⟨⟨⟨⟨⟨⟨⟨⟨hname, htype⟩, hlength⟩, hscale⟩, hnullable⟩, hencryption⟩, hautoIncrement⟩,
    hmembers⟩, hprimaryKey⟩, hunique⟩, ?_⟩
  generalize x.defaultValue = value at hvalue ⊢
  generalize y.defaultValue = value' at hvalue ⊢
  cases value <;> cases value' <;> exact hvalue

theorem InsertQuery.same_of_seen (x y : InsertQuery)
    (h : x.seen .withoutAliases = y.seen .withoutAliases) : x.same y := by
  injection h with htable hcolumns hrows
  simp only [same, Bool.and_eq_true, beq_iff_eq]
  exact ⟨⟨htable, hcolumns⟩, isEqv_of_map_eq hrows Expr.sameAll_of_map_eq⟩

theorem UpdateQuery.same_of_seen (x y : UpdateQuery)
    (h : x.seen .withoutAliases = y.seen .withoutAliases) : x.same y := by
  injection h with htable hassignments hcondition
  simp only [same, Bool.and_eq_true, beq_iff_eq]
  refine ⟨⟨htable, isEqv_of_map_eq hassignments ?_⟩,
    sameOption_of_map_eq hcondition Cnf.same_of_seen⟩
  intro assignment assignment' heq
  obtain ⟨hcolumn, hvalue⟩ := Prod.mk.inj heq
  rw [Bool.and_eq_true]
  exact ⟨beq_iff_eq.mpr hcolumn, Expr.same_of_seen _ _ hvalue⟩

theorem OpetreeCommand.StopCondition.same_refl (stop : StopCondition) :
    OpetreeCommand.StopCondition.same stop stop := by
  cases stop with
  | immediate => rfl
  | after duration unit => simp [StopCondition.same, duration.same_refl]

theorem OpetreeCommand.same_of_seen (x y : OpetreeCommand)
    (h : x.seen .withoutAliases = y.seen .withoutAliases) : x.same y := by
  injection h with hseeds hstop
  rw [same, Bool.and_eq_true]
  refine ⟨isEqv_of_map_eq hseeds Constant.same_of_seen, ?_⟩
  rw [hstop]
  cases y.stop with
  | none => rfl
  | some stop => exact StopCondition.same_refl stop

/-- **Queries that look alike without aliases are equal**, as equality does not count these. -/
theorem Query.same_of_seen (x y : Query) (h : x.seen .withoutAliases = y.seen .withoutAliases) :
    x.same y := by
  induction x generalizing y with
  | select l =>
    cases y with
    | select r => exact l.same_of_seen r (Query.select.inj h)
    | _ => cases h
  | insert l =>
    cases y with
    | insert r => exact l.same_of_seen r (Query.insert.inj h)
    | _ => cases h
  | update l =>
    cases y with
    | update r => exact l.same_of_seen r (Query.update.inj h)
    | _ => cases h
  | delete l =>
    cases y with
    | delete r =>
      injection Query.delete.inj h with htable hcondition
      rw [same, Bool.and_eq_true]
      exact ⟨beq_iff_eq.mpr htable, sameOption_of_map_eq hcondition Cnf.same_of_seen⟩
    | _ => cases h
  | createTable l =>
    cases y with
    | createTable r =>
      injection Query.createTable.inj h with htable hifNotExists hcolumns
      simp only [same, Bool.and_eq_true, beq_iff_eq]
      exact ⟨⟨htable, hifNotExists⟩, isEqv_of_map_eq hcolumns ColumnDefinition.same_of_seen⟩
    | _ => cases h
  | alterTable l =>
    cases y with
    | alterTable r =>
      injection Query.alterTable.inj h with htable hcolumn
      rw [same, Bool.and_eq_true]
      exact ⟨beq_iff_eq.mpr htable, l.column.same_of_seen r.column hcolumn⟩
    | _ => cases h
  | rebuildOpetree l =>
    cases y with
    | rebuildOpetree r => exact l.same_of_seen r (Query.rebuildOpetree.inj h)
    | _ => cases h
  | rebalanceOpetree l =>
    cases y with
    | rebalanceOpetree r => exact l.same_of_seen r (Query.rebalanceOpetree.inj h)
    | _ => cases h
  | bypass l ih =>
    cases y with
    | bypass r => exact ih r (Query.bypass.inj h)
    | _ => cases h
  | _ =>
    -- the other statements keep nothing that has another look
    cases y <;> cases h
    all_goals simp [same]

theorem isEqv_same_of_seen {queries queries' : List Query}
    (h : queries.map (Query.seen .withoutAliases) = queries'.map (Query.seen .withoutAliases)) :
    queries.isEqv queries' Query.same :=
  isEqv_of_map_eq h Query.same_of_seen

end SqlFront
