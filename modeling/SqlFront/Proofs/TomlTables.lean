import SqlFront.Toml.Document

/-!
A TOML document defines every key of every table once, and what a line has defined stays as it is
under all lines that follow.

Both come from what a change of one key does to a table: it changes the only entry of the key, or
appends one. The ways to fill a table are such changes, one inside another along a path.
-/

namespace SqlFront.Toml

/-- What is made of something that may be missing. -/
theorem exists_of_made {α β : Type} {made : α → β} {a? : Option α} {b : β}
    (h : (do return made (← a?)) = some b) : ∃ a, a? = some a ∧ made a = b := by
  obtain ⟨a, ha, hmade⟩ := Option.bind_eq_some_iff.mp h
  exact ⟨a, ha, Option.some.inj hmade⟩

/-! ### Changes of one key -/

namespace Table

variable {key : String} {change : Option Item → Option Item} {table next : Table}

/-- What a change of a key makes of a table: another item in the entry of the key, which is the only
one, or one more entry. -/
inductive Alters (key : String) (change : Option Item → Option Item) : Table → Table → Prop where
  | changed {before after : Table} {item changed : Item} (fresh : key ∉ before.map Prod.fst)
      (made : change (some item) = some changed) :
      Alters key change (before ++ (key, item) :: after) (before ++ (key, changed) :: after)
  | defined {table : Table} {item : Item} (fresh : key ∉ table.map Prod.fst)
      (made : change none = some item) : Alters key change table (table ++ [(key, item)])

theorem Alters.behind {k : String} {item : Item} (h : Alters key change table next)
    (hne : k ≠ key) :
    Alters key change ((k, item) :: table) ((k, item) :: next) := by
  cases h with
  | @changed before _ _ _ fresh made =>
    have fresh := List.not_mem_cons_of_ne_of_not_mem hne.symm fresh
    exact @Alters.changed key change ((k, item) :: before) _ _ _ fresh made
  | defined fresh made =>
    exact @Alters.defined key change ((k, item) :: table) _
      (List.not_mem_cons_of_ne_of_not_mem hne.symm fresh) made

theorem alters_of_alter (h : alter key change table = some next) :
    Alters key change table next := by
  induction table generalizing next with
  | nil =>
    obtain ⟨item, made, rfl⟩ := exists_of_made h
    exact .defined List.not_mem_nil made
  | cons entry entries ih =>
    obtain ⟨k, item⟩ := entry
    rw [alter] at h
    split at h
    case isTrue hk =>
      obtain ⟨changed, made, rfl⟩ := exists_of_made h
      subst hk
      exact @Alters.changed k change [] _ _ _ List.not_mem_nil made
    case isFalse hk =>
      obtain ⟨rest, hrest, rfl⟩ := exists_of_made h
      exact (ih hrest).behind hk

theorem lookup_of_fresh (h : key ∉ table.map Prod.fst) : table.lookup key = none := by
  rw [List.lookup_eq_none_iff]
  intro entry hentry
  rw [bne_iff_ne]
  rintro rfl
  exact h (List.mem_map_of_mem hentry)

/-- Behind entries of other keys, an entry is the one of its key. -/
theorem lookup_append_cons {item : Item} {after : Table} (h : key ∉ table.map Prod.fst) :
    (table ++ (key, item) :: after).lookup key = some item := by
  rw [List.lookup_append, lookup_of_fresh h, Option.none_or, List.lookup_cons_self]

theorem Alters.lookup_self (h : Alters key change table next) :
    ∃ item, change (table.lookup key) = some item ∧ next.lookup key = some item := by
  cases h with
  | @changed _ _ _ changed fresh made =>
    exact ⟨changed, (lookup_append_cons fresh).symm ▸ made, lookup_append_cons fresh⟩
  | @defined _ item fresh made =>
    exact ⟨item, (lookup_of_fresh fresh).symm ▸ made, lookup_append_cons fresh⟩

theorem Alters.lookup_of_ne {k : String} (h : Alters key change table next) (hne : k ≠ key) :
    next.lookup k = table.lookup k := by
  have hbeq : (k == key) = false := beq_false_of_ne hne
  cases h with
  | changed fresh made => simp only [List.lookup_append, List.lookup_cons, hbeq]
  | defined fresh made => simp [List.lookup_append, List.lookup_cons, hbeq]

end Table

/-! ### Distinct keys -/

mutual
/-- In every table inside an item, the keys are distinct. -/
inductive Item.Distinct : Item → Prop where
  | string {text : String} : Item.Distinct (.string text)
  | integer {value : Int} : Item.Distinct (.integer value)
  | boolean {value : Bool} : Item.Distinct (.boolean value)
  | float : Item.Distinct .float
  | dateTime : Item.Distinct .dateTime
  | array {items : List Item} (each : ∀ item ∈ items, Item.Distinct item) :
      Item.Distinct (.array items)
  | table {origin : Origin} {entries : Table} (inner : Table.Distinct entries) :
      Item.Distinct (.table origin entries)
  | tables {before : List Table} {last : Table} (each : ∀ table ∈ before, Table.Distinct table)
      (ofLast : Table.Distinct last) : Item.Distinct (.tables before last)

/-- The keys of a table are distinct, and so are those of every table inside it. -/
inductive Table.Distinct : Table → Prop where
  | of {table : Table} (keys : (table.map Prod.fst).Nodup)
      (items : ∀ entry ∈ table, Item.Distinct entry.2) : Table.Distinct table
end

/-- A change of a table that keeps its keys distinct. -/
def KeepsDistinct (change : Table → Option Table) : Prop :=
  ∀ ⦃table next : Table⦄, table.Distinct → change table = some next → next.Distinct

namespace Table

theorem distinct_nil : Table.Distinct [] :=
  .of List.nodup_nil fun _ hentry => absurd hentry List.not_mem_nil

theorem keepsDistinct_alter {key : String} {change : Option Item → Option Item}
    (hchange : ∀ old new, (∀ item ∈ old, item.Distinct) → change old = some new → new.Distinct) :
    KeepsDistinct (alter key change) := by
  rintro table next ⟨keys, items⟩ h
  cases alters_of_alter h with
  | changed fresh made =>
    rw [List.forall_mem_append, List.forall_mem_cons] at items
    obtain ⟨hbefore, hitem, hafter⟩ := items
    refine .of (by simpa using keys) ?_
    rw [List.forall_mem_append, List.forall_mem_cons]
    exact ⟨hbefore, hchange _ _ (by simpa using hitem) made, hafter⟩
  | defined fresh made =>
    constructor
    · rw [List.map_append, List.nodup_append]
      refine ⟨keys, by simp, ?_⟩
      rintro k hk _ hkey rfl
      rw [List.mem_singleton.mp hkey] at hk
      exact fresh hk
    · rw [List.forall_mem_append, List.forall_mem_singleton]
      exact ⟨items, hchange _ _ (by simp) made⟩

theorem keepsDistinct_define {key : String} {item : Item} (hitem : item.Distinct) :
    KeepsDistinct (define key item) := by
  apply keepsDistinct_alter
  intro old new _ h
  split at h
  case h_1 => exact Option.some.inj h ▸ hitem
  case h_2 => cases h

theorem keepsDistinct_inside {change : Table → Option Table} (hchange : KeepsDistinct change)
    (path : List String) : KeepsDistinct (inside change path) := by
  induction path with
  | nil => exact hchange
  | cons key path ih =>
    apply keepsDistinct_alter
    intro old new hold h
    split at h
    case h_1 =>
      obtain ⟨inner, hinner, rfl⟩ := exists_of_made h
      exact .table (ih distinct_nil hinner)
    case h_2 => cases h
    case h_3 =>
      obtain ⟨inner, hinner, rfl⟩ := exists_of_made h
      cases hold _ rfl with
      | table old => exact .table (ih old hinner)
    case h_4 =>
      obtain ⟨inner, hinner, rfl⟩ := exists_of_made h
      cases hold _ rfl with
      | tables each ofLast => exact .tables each (ih ofLast hinner)
    case h_5 => cases h

theorem keepsDistinct_assign {item : Item} (hitem : item.Distinct) (path : List String) :
    KeepsDistinct (assign item path) := by
  fun_induction assign item path with
  | case1 => exact fun _ _ _ h => nomatch h
  | case2 key => exact keepsDistinct_define hitem
  | case3 key next path ih =>
    apply keepsDistinct_alter
    intro old new hold h
    split at h
    · obtain ⟨inner, hinner, rfl⟩ := exists_of_made h
      exact .table (ih distinct_nil hinner)
    · obtain ⟨inner, hinner, rfl⟩ := exists_of_made h
      cases hold _ rfl with
      | table old => exact .table (ih old hinner)
    · split at h
      · cases h
      · obtain ⟨inner, hinner, rfl⟩ := exists_of_made h
        cases hold _ rfl with
        | table old => exact .table (ih old hinner)
    · split at h
      · cases h
      · obtain ⟨inner, hinner, rfl⟩ := exists_of_made h
        cases hold _ rfl with
        | tables each ofLast => exact .tables each (ih ofLast hinner)
    · cases h

theorem keepsDistinct_openTable (key : String) : KeepsDistinct (openTable key) := by
  apply keepsDistinct_alter
  intro old new hold h
  split at h
  · exact Option.some.inj h ▸ .table distinct_nil
  · cases hold _ rfl with
    | table inner => exact Option.some.inj h ▸ .table inner
  · cases h

theorem keepsDistinct_openElement (key : String) : KeepsDistinct (openElement key) := by
  apply keepsDistinct_alter
  intro old new hold h
  split at h
  · exact Option.some.inj h ▸ .tables (by simp) distinct_nil
  · cases hold _ rfl with
    | tables each ofLast =>
      refine Option.some.inj h ▸ .tables ?_ distinct_nil
      rw [List.forall_mem_append, List.forall_mem_singleton]
      exact ⟨each, ofLast⟩
  · cases h

theorem keepsDistinct_openAt {opening : String → Table → Option Table}
    (hopening : ∀ key, KeepsDistinct (opening key)) (path : List String) :
    KeepsDistinct (openAt opening path) := by
  intro table next htable h
  obtain ⟨key, _, hinside⟩ := Option.bind_eq_some_iff.mp h
  exact keepsDistinct_inside (hopening key) _ htable hinside

end Table

/-! ### Values -/

/-- All that a reader reads has a property if what each step of it reads has. -/
theorem forall_of_untilLast {α : Type} {step : Reader (α × Bool)} {holds : α → Prop}
    (hstep : ∀ text value last rest, step text = some ((value, last), rest) → holds value)
    {text rest : List Char} {values : List α} (h : untilLast step text = some (values, rest)) :
    ∀ value ∈ values, holds value := by
  fun_induction untilLast step text generalizing values rest with
  | case1 => cases h
  | case2 text value left hread =>
    cases h
    exact List.forall_mem_singleton.mpr (hstep _ _ _ _ hread)
  | case3 text value left hread hshorter ih =>
    obtain ⟨⟨others, rest⟩, hothers, hvalues⟩ := Option.map_eq_some_iff.mp h
    cases hvalues
    exact List.forall_mem_cons.mpr ⟨hstep _ _ _ _ hread, ih hothers⟩
  | case4 => cases h

/-- The item holds no other items. -/
def Item.isScalar : Item → Bool
  | .array _ | .table _ _ | .tables _ _ => false
  | _ => true

/-- No line adds anything to the item: it is not a table, or one in braces. -/
def Item.isClosed : Item → Bool
  | .table origin _ => origin = .inline
  | .tables _ _ => false
  | _ => true

theorem Item.Distinct.of_isScalar {item : Item} (h : item.isScalar) : item.Distinct := by
  cases item with
  | string => exact .string
  | integer => exact .integer
  | boolean => exact .boolean
  | float => exact .float
  | dateTime => exact .dateTime
  | array | table | tables => cases h

theorem Item.isClosed_of_isScalar {item : Item} (h : item.isScalar) : item.isClosed := by
  cases item with
  | string | integer | boolean | float | dateTime => rfl
  | array | table | tables => cases h

section Scalars

variable {text rest : List Char} {item : Item}

theorem isScalar_of_integer? {negative : Bool} {magnitude : Nat}
    (h : integer? negative magnitude = some item) : item.isScalar := by
  obtain ⟨_, hitem⟩ := Option.ite_none_right_eq_some.mp h
  exact Option.some.inj hitem ▸ rfl

theorem isScalar_of_basedInteger {base : Nat} {isDigit : Char → Bool}
    (h : basedInteger base isDigit text = some (item, rest)) : item.isScalar := by
  simp only [basedInteger, Option.pure_def, Option.bind_eq_bind, Option.bind_eq_some_iff,
    Option.some.injEq, Prod.mk.injEq, Prod.exists] at h
  obtain ⟨_, _, _, _, hitem, rfl, _⟩ := h
  exact isScalar_of_integer? hitem

theorem isScalar_of_integer (h : integer text = some (item, rest)) : item.isScalar := by
  unfold integer at h
  split at h
  case h_1 | h_2 | h_3 => exact isScalar_of_basedInteger h
  case h_4 =>
    simp only [Option.pure_def, Option.bind_eq_bind, Option.bind_eq_some_iff, Option.some.injEq,
      Prod.mk.injEq, Prod.exists] at h
    obtain ⟨_, _, _, _, hitem, rfl, _⟩ := h
    exact isScalar_of_integer? hitem

theorem isScalar_of_decimalFloat (h : decimalFloat text = some (item, rest)) : item.isScalar := by
  simp only [decimalFloat, Option.pure_def, Option.bind_eq_bind, Option.bind_none,
    Option.bind_eq_some_iff, Option.ite_none_left_eq_some, Option.some.injEq, Prod.mk.injEq,
    Prod.exists] at h
  obtain ⟨_, _, _, _, _, _, _, _, _, _, _, rfl, _⟩ := h
  rfl

theorem isScalar_of_namedFloat (h : namedFloat text = some (item, rest)) : item.isScalar := by
  simp only [namedFloat, Option.pure_def, Option.bind_eq_bind, Option.bind_eq_some_iff,
    Option.some.injEq, Prod.mk.injEq, exists_eq_right_right] at h
  obtain ⟨_, rfl⟩ := h
  rfl

theorem isScalar_of_boolean (h : boolean text = some (item, rest)) : item.isScalar := by
  unfold boolean at h
  split at h
  · cases h
    rfl
  · obtain ⟨_, _, hitem⟩ := Option.map_eq_some_iff.mp h
    cases hitem
    rfl

theorem isScalar_of_dateTime (h : dateTime text = some (item, rest)) : item.isScalar := by
  unfold dateTime at h
  split at h
  · split at h <;> cases h <;> rfl
  · obtain ⟨_, _, hitem⟩ := Option.map_eq_some_iff.mp h
    cases hitem
    rfl

theorem isScalar_of_scalar (h : scalar text = some (item, rest)) : item.isScalar := by
  unfold scalar at h
  split at h
  · cases h
    rfl
  · simp only [Option.orElse_eq_orElse, Option.orElse_eq_or, Option.or_eq_some_iff] at h
    rcases h with h | ⟨_, h | ⟨_, h | ⟨_, h | ⟨_, h⟩⟩⟩⟩
    · exact isScalar_of_dateTime h
    · exact isScalar_of_decimalFloat h
    · exact isScalar_of_namedFloat h
    · exact isScalar_of_boolean h
    · exact isScalar_of_integer h

end Scalars

/-- What lines assign: the keys of all tables inside it are distinct, and no line adds to it. -/
def Item.IsValue (item : Item) : Prop := item.Distinct ∧ item.isClosed

theorem Item.IsValue.of_isScalar {item : Item} (h : item.isScalar) : item.IsValue :=
  ⟨.of_isScalar h, isClosed_of_isScalar h⟩

/-- All that a reader of items yields are values. -/
def ReadsValues (reader : Reader Item) : Prop :=
  ∀ ⦃text item rest⦄, reader text = some (item, rest) → item.IsValue

/-- What each step of a fold keeps, a fold that succeeds keeps. -/
theorem keep_of_foldlM_eq_some {α β : Type} {motive : β → Prop} {f : β → α → Option β}
    {items : List α} {b result : β}
    (step : ∀ item ∈ items, ∀ b next, f b item = some next → motive b → motive next)
    (h : items.foldlM f b = some result) (start : motive b) : motive result := by
  induction items generalizing b with
  | nil => exact Option.some.inj h ▸ start
  | cons item items ih =>
    rw [List.foldlM_cons] at h
    obtain ⟨next, hnext, h⟩ := Option.bind_eq_some_iff.mp h
    obtain ⟨first, others⟩ := List.forall_mem_cons.mp step
    exact ih others h (first b next hnext start)

section Values

variable {value : Reader Item} {text rest : List Char}

theorem isValue_of_definition (hvalue : ReadsValues value) {defined : List String × Item}
    (h : definition value text = some (defined, rest)) : defined.2.IsValue := by
  simp only [definition, Option.pure_def, Option.bind_eq_bind, Option.bind_eq_some_iff,
    Option.some.injEq, Prod.mk.injEq, Prod.exists, exists_eq_right_right] at h
  obtain ⟨_, _, _, _, _, _, hitem, rfl⟩ := h
  exact hvalue hitem

theorem isValue_of_arrayStep (hvalue : ReadsValues value) {item : Item} {last : Bool}
    (h : arrayStep value text = some ((item, last), rest)) : item.IsValue := by
  obtain ⟨⟨read, left⟩, hitem, h⟩ := Option.bind_eq_some_iff.mp h
  suffices item = read from this ▸ hvalue hitem
  grind

theorem isValue_of_inlineStep (hvalue : ReadsValues value) {defined : List String × Item}
    {last : Bool} (h : inlineStep value text = some ((defined, last), rest)) :
    defined.2.IsValue := by
  obtain ⟨⟨read, left⟩, hitem, h⟩ := Option.bind_eq_some_iff.mp h
  suffices defined = read from this ▸ isValue_of_definition hvalue hitem
  grind

theorem readsValues_array (hvalue : ReadsValues value) : ReadsValues (array value) := by
  intro text item rest h
  unfold array at h
  split at h
  · cases h
    exact ⟨.array (by simp), rfl⟩
  · obtain ⟨⟨items, left⟩, hitems, hitem⟩ := Option.map_eq_some_iff.mp h
    cases hitem
    have each := forall_of_untilLast (fun _ _ _ _ h => isValue_of_arrayStep hvalue h) hitems
    exact ⟨.array fun item hmem => (each item hmem).1, rfl⟩

theorem distinct_of_tableOf {definitions : List (List String × Item)} {table : Table}
    (hitems : ∀ defined ∈ definitions, defined.2.IsValue) (h : tableOf definitions = some table) :
    table.Distinct :=
  keep_of_foldlM_eq_some (motive := Table.Distinct)
    (fun defined hmem _ _ hnext hold =>
      Table.keepsDistinct_assign (hitems defined hmem).1 defined.1 hold hnext)
    h Table.distinct_nil

theorem readsValues_inlineTable (hvalue : ReadsValues value) : ReadsValues (inlineTable value) := by
  intro text item rest h
  unfold inlineTable at h
  split at h
  · cases h
    exact ⟨.table Table.distinct_nil, rfl⟩
  · simp only [Option.pure_def, Option.bind_eq_bind, Option.bind_eq_some_iff, Option.some.injEq,
      Prod.mk.injEq, Prod.exists] at h
    obtain ⟨definitions, left, hdefinitions, table, htable, rfl, rfl⟩ := h
    have each := forall_of_untilLast (fun _ _ _ _ h => isValue_of_inlineStep hvalue h) hdefinitions
    exact ⟨.table (distinct_of_tableOf each htable), rfl⟩

theorem readsValues_value (levels : Nat) : ReadsValues (Toml.value levels) := by
  induction levels with
  | zero => exact fun _ _ _ h => .of_isScalar (isScalar_of_scalar h)
  | succ levels ih =>
    intro text item rest h
    unfold Toml.value at h
    split at h
    · exact readsValues_array ih h
    · exact readsValues_inlineTable ih h
    · exact .of_isScalar (isScalar_of_scalar h)

/-- A line that assigns, assigns a value. -/
def Line.AssignsValue : Line → Prop
  | .assign _ item => item.IsValue
  | _ => True

theorem assignsValue_of_lineContent {line : Line}
    (h : lineContent text = some (line, rest)) : line.AssignsValue := by
  unfold lineContent at h
  split at h
  all_goals
    simp only [Option.pure_def, Option.bind_eq_bind, Option.bind_eq_some_iff, Option.some.injEq,
      Prod.mk.injEq, Prod.exists, exists_eq_right_right] at h
  · obtain ⟨_, _, _, _, rfl⟩ := h
    trivial
  · obtain ⟨_, _, _, _, rfl⟩ := h
    trivial
  · obtain ⟨_, _, hdefined, rfl⟩ := h
    exact isValue_of_definition (readsValues_value _) hdefined

theorem assignsValue_of_lineStep {line : Line} {last : Bool}
    (h : lineStep text = some ((line, last), rest)) : line.AssignsValue := by
  unfold lineStep at h
  split at h
  · cases h
    trivial
  · obtain ⟨⟨read, left⟩, hread, h⟩ := Option.bind_eq_some_iff.mp h
    obtain ⟨_, _, h⟩ := Option.bind_eq_some_iff.mp h
    cases h
    exact assignsValue_of_lineContent hread

end Values

/-! ### Documents -/

namespace Document

variable {document next : Document} {line : Line}

theorem distinct_add (hline : line.AssignsValue) (hroot : document.root.Distinct)
    (h : document.add line = some next) : next.root.Distinct := by
  cases line with
  | blank => exact Option.some.inj h ▸ hroot
  | assign key item =>
    obtain ⟨root, hassigned, rfl⟩ := exists_of_made h
    exact Table.keepsDistinct_inside (Table.keepsDistinct_assign hline.1 key) _ hroot hassigned
  | openTable path =>
    obtain ⟨root, hopened, rfl⟩ := exists_of_made h
    exact Table.keepsDistinct_openAt Table.keepsDistinct_openTable path hroot hopened
  | openElement path =>
    obtain ⟨root, hopened, rfl⟩ := exists_of_made h
    exact Table.keepsDistinct_openAt Table.keepsDistinct_openElement path hroot hopened

theorem assignsValue_of_lines? {text : List Char} {lines : List Line}
    (h : lines? text = some lines) : ∀ line ∈ lines, line.AssignsValue := by
  obtain ⟨⟨read, rest⟩, hread, rfl⟩ := Option.map_eq_some_iff.mp h
  exact forall_of_untilLast (fun _ _ _ _ h => assignsValue_of_lineStep h) hread

/-- **In a document that is read, every table defines each of its keys once**, however deep it is
in others. -/
theorem distinct_of_ofText? {text : List Char} (h : ofText? text = some document) :
    document.root.Distinct := by
  obtain ⟨lines, hlines, hdocument⟩ := Option.bind_eq_some_iff.mp h
  have hvalues := assignsValue_of_lines? hlines
  exact keep_of_foldlM_eq_some (motive := fun document => document.root.Distinct)
    (fun line hmem _ _ hnext hold => distinct_add (hvalues line hmem) hold hnext)
    hdocument Table.distinct_nil

end Document

/-! ### Values of keys -/

/-- A change of a table that neither defines a value nor changes one. -/
def KeepsValues (change : Table → Option Table) : Prop :=
  ∀ ⦃table next : Table⦄, change table = some next → ∀ (key : String) ⦃item : Item⦄,
    item.isClosed → (next.lookup key = some item ↔ table.lookup key = some item)

namespace Table

/-- A change of a key keeps the values if it makes something open, of something open or nothing. -/
theorem keepsValues_alter {key : String} {change : Option Item → Option Item}
    (hopens : ∀ old new, change old = some new →
      new.isClosed = false ∧ old.any Item.isClosed = false) :
    KeepsValues (alter key change) := by
  intro table next h k item hclosed
  by_cases hk : k = key
  · subst hk
    obtain ⟨new, made, hnew⟩ := (alters_of_alter h).lookup_self
    obtain ⟨hopen, hold⟩ := hopens _ _ made
    constructor
    · intro hitem
      obtain rfl := Option.some.inj (hnew.symm.trans hitem)
      exact absurd hclosed (Bool.eq_false_iff.mp hopen)
    · intro hitem
      rw [hitem] at hold
      exact absurd hclosed (Bool.eq_false_iff.mp hold)
  · rw [(alters_of_alter h).lookup_of_ne hk]

theorem keepsValues_inside (change : Table → Option Table) (key : String) (path : List String) :
    KeepsValues (inside change (key :: path)) := by
  apply keepsValues_alter
  intro old new h
  split at h
  case h_1 =>
    obtain ⟨inner, _, rfl⟩ := exists_of_made h
    exact ⟨rfl, rfl⟩
  case h_2 => cases h
  case h_3 hinline =>
    obtain ⟨inner, _, rfl⟩ := exists_of_made h
    have hopen := decide_eq_false hinline
    exact ⟨hopen, hopen⟩
  case h_4 =>
    obtain ⟨inner, _, rfl⟩ := exists_of_made h
    exact ⟨rfl, rfl⟩
  case h_5 => cases h

theorem keepsValues_assign (item : Item) (key next : String) (path : List String) :
    KeepsValues (assign item (key :: next :: path)) := by
  apply keepsValues_alter
  intro old new h
  split at h
  · obtain ⟨inner, _, rfl⟩ := exists_of_made h
    exact ⟨rfl, rfl⟩
  · obtain ⟨inner, _, rfl⟩ := exists_of_made h
    exact ⟨rfl, rfl⟩
  · split at h
    · cases h
    · obtain ⟨inner, _, rfl⟩ := exists_of_made h
      exact ⟨rfl, rfl⟩
  · split at h
    · cases h
    · obtain ⟨inner, _, rfl⟩ := exists_of_made h
      exact ⟨rfl, rfl⟩
  · cases h

theorem keepsValues_openTable (key : String) : KeepsValues (openTable key) := by
  apply keepsValues_alter
  intro old new h
  split at h
  · exact Option.some.inj h ▸ ⟨rfl, rfl⟩
  · exact Option.some.inj h ▸ ⟨rfl, rfl⟩
  · cases h

theorem keepsValues_openElement (key : String) : KeepsValues (openElement key) := by
  apply keepsValues_alter
  intro old new h
  split at h
  · exact Option.some.inj h ▸ ⟨rfl, rfl⟩
  · exact Option.some.inj h ▸ ⟨rfl, rfl⟩
  · cases h

theorem keepsValues_openAt {opening : String → Table → Option Table}
    (hopening : ∀ key, KeepsValues (opening key)) (path : List String) :
    KeepsValues (openAt opening path) := by
  intro table next h
  obtain ⟨key, _, hinside⟩ := Option.bind_eq_some_iff.mp h
  cases hfront : path.dropLast with
  | nil =>
    rw [hfront] at hinside
    exact hopening key hinside
  | cons first others =>
    rw [hfront] at hinside
    exact keepsValues_inside _ first others hinside

/-- A key that is defined has not stood for anything before; nothing else changes. -/
theorem lookup_define {key k : String} {item value : Item} {table next : Table}
    (h : define key item table = some next) :
    next.lookup k = some value ↔ table.lookup k = some value ∨ k = key ∧ value = item := by
  by_cases hk : k = key
  · subst hk
    obtain ⟨new, made, hnew⟩ := (alters_of_alter h).lookup_self
    split at made
    case h_1 hnone =>
      obtain rfl := Option.some.inj made
      simp [hnew, hnone, eq_comm]
    case h_2 => cases made
  · simp [(alters_of_alter h).lookup_of_ne hk, hk]

end Table

/-- The line is a header. -/
def Line.isHeader : Line → Bool
  | .openTable _ | .openElement _ => true
  | .blank | .assign _ _ => false

/-- The lines before any header, whose keys are those of the root. -/
def rootLines (lines : List Line) : List Line :=
  lines.takeWhile (!·.isHeader)

theorem mem_of_mem_rootLines {line : Line} {lines : List Line} (h : line ∈ rootLines lines) :
    line ∈ lines :=
  (List.takeWhile_prefix _).subset h

namespace Document

variable {document next : Document} {line : Line} {key : String} {item : Item}

/-- **A line changes no value of the root**, and defines one only where it assigns it to the key
and no header has been read. -/
theorem lookup_add (h : document.add line = some next) (hclosed : item.isClosed) :
    next.root.lookup key = some item ↔ document.root.lookup key = some item ∨
      document.path = [] ∧ line = .assign [key] item := by
  cases line with
  | blank =>
    obtain rfl := Option.some.inj h
    simp
  | assign path value =>
    obtain ⟨root, hassigned, rfl⟩ := exists_of_made h
    match hopen : document.path, path with
    | first :: others, path =>
      rw [hopen] at hassigned
      simp [Table.keepsValues_inside _ first others hassigned key hclosed]
    | [], [] =>
      rw [hopen] at hassigned
      cases hassigned
    | [], [k] =>
      rw [hopen] at hassigned
      rw [Table.lookup_define hassigned]
      simp [eq_comm]
    | [], k :: n :: path =>
      rw [hopen] at hassigned
      simp [Table.keepsValues_assign value k n path hassigned key hclosed]
  | openTable path =>
    obtain ⟨root, hopened, rfl⟩ := exists_of_made h
    simp [Table.keepsValues_openAt Table.keepsValues_openTable path hopened key hclosed]
  | openElement path =>
    obtain ⟨root, hopened, rfl⟩ := exists_of_made h
    simp [Table.keepsValues_openAt Table.keepsValues_openElement path hopened key hclosed]

theorem ne_nil_of_openAt {opening : String → Table → Option Table} {path : List String}
    {table root : Table} (h : table.openAt opening path = some root) : path ≠ [] := by
  rintro rfl
  cases h

/-- No table is open until a header is read. -/
theorem path_add (h : document.add line = some next) :
    next.path = [] ↔ document.path = [] ∧ line.isHeader = false := by
  cases line with
  | blank =>
    obtain rfl := Option.some.inj h
    simp [Line.isHeader]
  | assign path value =>
    obtain ⟨root, _, rfl⟩ := exists_of_made h
    simp [Line.isHeader]
  | openTable path =>
    obtain ⟨root, hopened, rfl⟩ := exists_of_made h
    simp [Line.isHeader, ne_nil_of_openAt hopened]
  | openElement path =>
    obtain ⟨root, hopened, rfl⟩ := exists_of_made h
    simp [Line.isHeader, ne_nil_of_openAt hopened]

theorem lookup_of_foldlM {lines : List Line} (h : lines.foldlM add document = some next)
    (hclosed : item.isClosed) :
    next.root.lookup key = some item ↔ document.root.lookup key = some item ∨
      document.path = [] ∧ .assign [key] item ∈ rootLines lines := by
  induction lines generalizing document with
  | nil =>
    obtain rfl := Option.some.inj h
    simp [rootLines]
  | cons line lines ih =>
    rw [List.foldlM_cons] at h
    obtain ⟨following, hadd, h⟩ := Option.bind_eq_some_iff.mp h
    rw [ih h, lookup_add hadd hclosed, path_add hadd, rootLines, rootLines, List.takeWhile_cons]
    cases hheader : line.isHeader with
    | false => simp [and_or_left, or_assoc, eq_comm]
    | true =>
      have hassign : line ≠ .assign [key] item := by
        rintro rfl
        cases hheader
      simp [hassign]

/-- **The values in the root of a document are those that its lines assign before any header.** -/
theorem lookup_root_iff {lines : List Line} (h : lines.foldlM add empty = some document)
    (hclosed : item.isClosed) :
    document.root.lookup key = some item ↔ .assign [key] item ∈ rootLines lines := by
  simp [lookup_of_foldlM h hclosed, empty]

end Document

end SqlFront.Toml
