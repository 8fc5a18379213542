import SqlFront.Config.Toml
import SqlFront.Proofs.Outcome
import SqlFront.Proofs.TomlTables
import SqlFront.Proofs.TomlText

/-!
Settings from a TOML document: each of them is what a line says about it, or the standard setting
where no line says anything, and the order of the keys does not matter. Settings that are written as
a document are read back from it.
-/

namespace SqlFront.Config

open Toml Decimal

section Setting

variable {α : Type} {root : Table} {key : String} {standard value : α} {read : Item → Option α}

theorem setting_eq_some_iff :
    setting root key standard read = some value ↔
      (∃ item, root.lookup key = some item ∧ read item = some value) ∨
        root.lookup key = none ∧ value = standard := by
  unfold setting
  split
  case h_1 item hitem => simp [hitem]
  case h_2 hnone => simp [hnone, eq_comm]

/-- What the lines before any header say about a setting: one of them assigns the value to its key,
or none assigns anything, and the value is the standard. -/
def Said (lines : List Line) (key : String) (standard : α) (read : Item → Option α) (value : α) :
    Prop :=
  (∃ item, .assign [key] item ∈ rootLines lines ∧ read item = some value) ∨
    (∀ item, .assign [key] item ∉ rootLines lines) ∧ value = standard

/-- A setting is what lines say about it, or its key stands for a table that lines have opened. -/
theorem said_of_setting {lines : List Line} {document : Document}
    (hvalues : ∀ line ∈ lines, line.AssignsValue)
    (hlines : lines.foldlM Document.add .empty = some document)
    (h : setting document.root key standard read = some value) :
    Said lines key standard read value ∨ ∃ item, item.isClosed = false ∧
      document.root.lookup key = some item ∧ read item = some value := by
  obtain ⟨item, hitem, hread⟩ | ⟨hnone, rfl⟩ := setting_eq_some_iff.mp h
  · cases hclosed : item.isClosed with
    | true =>
      have hassigned := (Document.lookup_root_iff hlines hclosed).mp hitem
      exact .inl (Or.inl ⟨item, hassigned, hread⟩)
    | false => exact .inr ⟨item, hclosed, hitem, hread⟩
  · refine .inl (Or.inr ⟨fun item hassigned => ?_, rfl⟩)
    have hclosed := (hvalues _ (mem_of_mem_rootLines hassigned)).2
    have := (Document.lookup_root_iff hlines hclosed).mpr hassigned
    rw [hnone] at this
    cases this

end Setting

/-- The settings that the lines of a document say, with the root of the document. -/
structure SaidBy (lines : List Line) (root : Table) (config : Config) : Prop where
  /-- The name of the dialect may also be the only key in the table of the setting. -/
  dialect : Said lines "dialect" standard.dialect Item.dialect? config.dialect ∨
    ∃ origin name item, root.lookup "dialect" = some (.table origin [(name, item)]) ∧
      Dialect.ofName? name = some config.dialect
  backslashEscapes : Said lines "backslash_escapes" standard.backslashEscapes
    (·.boolean?.map some) config.backslashEscapes
  allowUseStatements : Said lines "allow_use_statements" standard.allowUseStatements
    Item.boolean? config.allowUseStatements
  maxNestingDepth : Said lines "max_nesting_depth" standard.maxNestingDepth Item.count?
    config.maxNestingDepth
  maxCnfLeaves : Said lines "max_cnf_leaves" standard.maxCnfLeaves Item.count? config.maxCnfLeaves

theorem saidBy_of_ofTable? {lines : List Line} {document : Document} {config : Config}
    (hvalues : ∀ line ∈ lines, line.AssignsValue)
    (hlines : lines.foldlM Document.add .empty = some document)
    (h : ofTable? document.root = some config) : config.SaidBy lines document.root := by
  obtain ⟨dialect, hdialect, h⟩ := Option.bind_eq_some_iff.mp h
  obtain ⟨escapes, hescapes, h⟩ := Option.bind_eq_some_iff.mp h
  obtain ⟨use, huse, h⟩ := Option.bind_eq_some_iff.mp h
  obtain ⟨depth, hdepth, h⟩ := Option.bind_eq_some_iff.mp h
  obtain ⟨leaves, hleaves, h⟩ := Option.bind_eq_some_iff.mp h
  obtain rfl := Option.some.inj h
  -- Only a dialect may be said by a table that lines have opened.
  have said {α : Type} {key : String} {standard value : α} {read : Item → Option α}
      (h : setting document.root key standard read = some value)
      (hread : ∀ item, item.isClosed = false → read item = none) :
      Said lines key standard read value := by
    refine (said_of_setting hvalues hlines h).resolve_right ?_
    rintro ⟨item, hopen, _, hitem⟩
    rw [hread item hopen] at hitem
    cases hitem
  have noBoolean (item : Item) (hopen : item.isClosed = false) : item.boolean? = none := by
    cases item with
    | boolean => cases hopen
    | _ => rfl
  have noCount (item : Item) (hopen : item.isClosed = false) : item.count? = none := by
    cases item with
    | integer => cases hopen
    | _ => rfl
  refine ⟨?_, said hescapes fun item hopen => ?_, said huse noBoolean, said hdepth noCount,
    said hleaves noCount⟩
  · refine (said_of_setting hvalues hlines hdialect).imp_right ?_
    rintro ⟨item, hopen, hitem, hread⟩
    unfold Item.dialect? at hread
    split at hread
    case h_1 => cases hopen
    case h_2 origin name inner =>
      obtain ⟨_, hname⟩ := Option.ite_none_right_eq_some.mp hread
      exact ⟨origin, name, inner, hitem, hname⟩
    case h_3 => cases hread
  · rw [noBoolean item hopen, Option.map_none]

theorem limits_of_validate {config : Config} (h : config.validate = .ok ()) :
    0 < config.maxNestingDepth ∧ 0 < config.maxCnfLeaves := by
  unfold validate at h
  split at h
  · cases h
  · split at h
    · cases h
    · omega

/-- **The settings that are read from a text are those of its lines**, and their limits are
positive. -/
theorem saidBy_of_ofToml {text : String} {config : Config} (h : ofToml text = .ok config) :
    ∃ lines document, Document.lines? text.toList = some lines ∧
      lines.foldlM Document.add .empty = some document ∧ config.SaidBy lines document.root ∧
      0 < config.maxNestingDepth ∧ 0 < config.maxCnfLeaves := by
  unfold ofToml at h
  dsimp only at h
  split at h
  case h_1 => cases h
  case h_2 read hread =>
    obtain ⟨⟨⟩, hvalid, h⟩ := bind_eq_ok.mp h
    obtain rfl := pure_eq_ok.mp h
    obtain ⟨document, hdocument, hsettings⟩ := Option.bind_eq_some_iff.mp hread
    obtain ⟨lines, hlines, hfold⟩ := Option.bind_eq_some_iff.mp hdocument
    have hvalues := Document.assignsValue_of_lines? hlines
    exact ⟨lines, document, hlines, hfold, saidBy_of_ofTable? hvalues hfold hsettings,
      limits_of_validate hvalid⟩

/-! ### The order of keys -/

/-- Where keys are distinct, what a key stands for is in the only entry of the key. -/
theorem lookup_eq_some_iff_mem {table : Table} (hkeys : (table.map Prod.fst).Nodup) {key : String}
    {item : Item} : table.lookup key = some item ↔ (key, item) ∈ table := by
  induction table with
  | nil => simp
  | cons entry entries ih =>
    obtain ⟨k, first⟩ := entry
    obtain ⟨hfresh, hkeys⟩ := List.nodup_cons.mp hkeys
    rw [List.lookup_cons, List.mem_cons, Prod.mk.injEq]
    by_cases hk : key = k
    · subst hk
      have hothers : (key, item) ∉ entries := fun hmem =>
        hfresh (List.mem_map.mpr ⟨_, hmem, rfl⟩)
      simp [hothers, eq_comm]
    · simp [hk, beq_false_of_ne hk, ih hkeys]

/-- **The order of keys does not matter to the settings**, as no key stands for two things. -/
theorem ofTable?_of_perm {first second : Table} (hkeys : first.Distinct) (h : first.Perm second) :
    ofTable? first = ofTable? second := by
  obtain ⟨hkeys, _⟩ := hkeys
  have hsame (key : String) : first.lookup key = second.lookup key := by
    ext item
    have hothers := (h.map Prod.fst).nodup_iff.mp hkeys
    rw [lookup_eq_some_iff_mem hkeys, lookup_eq_some_iff_mem hothers, h.mem_iff]
  simp only [ofTable?, setting, hsame]

/-! ### Settings as a document -/

/-- The settings as a table, with those that are there. -/
def toTable (config : Config) : Table :=
  ("dialect", .string config.dialect.name) ::
    config.backslashEscapes.toList.map (("backslash_escapes", .boolean ·)) ++
    [("allow_use_statements", .boolean config.allowUseStatements),
      ("max_nesting_depth", .integer config.maxNestingDepth),
      ("max_cnf_leaves", .integer config.maxCnfLeaves)]

/-- The settings as the text of a TOML document, one line for each key of the table. -/
def toToml (config : Config) : List Char :=
  definitionText "dialect".toList (quotedText config.dialect.name.toList) ++
    config.backslashEscapes.toList.flatMap
      (definitionText "backslash_escapes".toList ∘ booleanText) ++
    definitionText "allow_use_statements".toList (booleanText config.allowUseStatements) ++
    definitionText "max_nesting_depth".toList (digitText config.maxNestingDepth) ++
    definitionText "max_cnf_leaves".toList (digitText config.maxCnfLeaves)

theorem spells_dialect (dialect : Dialect) :
    Spells (quotedText dialect.name.toList) (.string dialect.name) := by
  cases dialect <;> exact spells_string (by decide) (by decide)

theorem spells_count {n : Nat} (h : fitsInt64 n) : Spells (digitText n) (.integer n) := by
  have := spells_integer (isInteger_digitText n) (by rwa [digitsValue_digitText])
  rwa [digitsValue_digitText] at this

theorem ofTable?_toTable (config : Config) : ofTable? config.toTable = some config := by
  obtain ⟨dialect, escapes, use, depth, leaves⟩ := config
  have hdialect : Item.dialect? (.string dialect.name) = some dialect :=
    Dialect.ofName?_name dialect
  cases escapes with
  | none =>
    simp [ofTable?, toTable, setting, List.lookup_cons, Item.boolean?, Item.count?, hdialect,
      standard]
  | some value =>
    simp [ofTable?, toTable, setting, List.lookup_cons, Item.boolean?, Item.count?, hdialect]

theorem ofText?_toToml {config : Config} (hdepth : fitsInt64 config.maxNestingDepth)
    (hleaves : fitsInt64 config.maxCnfLeaves) :
    Document.ofText? config.toToml = some ⟨config.toTable, []⟩ := by
  let entries : List Entry :=
    ⟨"dialect".toList, _, _, isBareKey_of_all rfl, spells_dialect config.dialect⟩ ::
      config.backslashEscapes.toList.map (fun value =>
        ⟨"backslash_escapes".toList, _, _, isBareKey_of_all rfl, spells_boolean value⟩) ++
      [⟨"allow_use_statements".toList, _, _, isBareKey_of_all rfl,
          spells_boolean config.allowUseStatements⟩,
        ⟨"max_nesting_depth".toList, _, _, isBareKey_of_all rfl, spells_count hdepth⟩,
        ⟨"max_cnf_leaves".toList, _, _, isBareKey_of_all rfl, spells_count hleaves⟩]
  have htable : entries.map Entry.pair = config.toTable := by
    simp [entries, toTable, Entry.pair]
  have htext : entries.flatMap Entry.line = config.toToml := by
    simp [entries, toToml, Entry.line, List.flatMap_map, Function.comp_def]
  have hkeys : (config.toTable.map Prod.fst).Nodup := by
    cases h : config.backslashEscapes with
    | none => simp [toTable, h]
    | some value => simp [toTable, h]
  rw [← htable, ← htext]
  exact ofText?_lines (htable ▸ hkeys)

/-- **Settings that are written as a TOML document are read back.** -/
theorem ofToml_toToml {config : Config} (hvalid : config.validate = .ok ())
    (hdepth : fitsInt64 config.maxNestingDepth) (hleaves : fitsInt64 config.maxCnfLeaves) :
    ofToml (String.ofList config.toToml) = .ok config := by
  simp only [ofToml, String.toList_ofList, ofText?_toToml hdepth hleaves, Option.bind_some,
    ofTable?_toTable, hvalid]
  rfl

end SqlFront.Config
