import HookGen.Proofs.Code.Reading
import HookGen.Proofs.Generation.Modules

/-!
The scopes of generated modules: each is the scope of the text that is generated.
-/

namespace HookGen.Generation

open Code Traced

variable {schema : Schema} {clientPath : Text} {output : Path}

theorem isProper_banner (text : Text) : Piece.IsProper (.comment (banner text)) :=
  .inl ⟨⟨" " ++ text ++ " */", by simp [banner, Text.ofString, Text.ofChars]⟩,
    ⟨"/** " ++ text ++ " ", by simp [banner, Text.ofString, Text.ofChars]⟩⟩

theorem exportConst_eq (name rest : Text) :
    (("export const " : Text) ++ name ++ rest) = Piece.text (.declaration true "const" name rest) := by
  simp [Piece.text, Text.ofString, Text.ofChars]

theorem const_eq (name rest : Text) :
    (("const " : Text) ++ name ++ rest) = Piece.text (.declaration false "const" name rest) := by
  simp [Piece.text, Text.ofString, Text.ofChars]

theorem exportType_eq (name rest : Text) :
    (("export type " : Text) ++ name ++ rest) = Piece.text (.declaration true "type" name rest) := by
  simp [Piece.text, Text.ofString, Text.ofChars]

theorem const_mem_keywords : Text.ofString "const" ∈ keywords := by decide

theorem type_mem_keywords : Text.ofString "type" ∈ keywords := by decide

theorem interface_mem_keywords : Text.ofString "interface" ∈ keywords := by decide

-- Lines under a comment, the first of which begins a declaration.
theorem isScoped_documented (parts : List Text) (exported : Bool) {keyword : Text} (name rest : Text)
    (h : Piece.IsProper (.declaration exported keyword name rest)) (lines : List Text) :
    IsScoped (Text.joinLines
      (docComment parts :: Piece.text (.declaration exported keyword name rest) :: lines))
      (.declaring exported name) := by
  rw [Text.joinLines, Text.join_cons_cons]
  exact (isScoped_joinLines h lines).under_comment (isProper_docComment parts) (joinLines_declaration_ne_nil h lines)

theorem isScoped_declare (name text : Text) : IsScoped (Types.declare name text) (.exporting [name]) := by
  have heq : Types.declare name text =
      Piece.text (.declaration true "type" name (" = " ++ text ++ ";")) := by
    simp [Types.declare, Piece.text, Text.ofString, Text.ofChars]
  rw [heq]
  exact isScoped_declaration ⟨type_mem_keywords, rfl⟩

theorem isScoped_filterParams (table : Table) :
    IsScoped (Types.filterParams table) (.exporting [table.typeName ++ "FilterParams"]) := by
  have hopening : (("export type " : Text) ++ table.typeName ++ "FilterParams = \x7b") =
      Piece.text (.declaration true "type" (table.typeName ++ "FilterParams") " = \x7b") := by
    simp [Piece.text, Text.ofString, Text.ofChars]
  rw [Types.filterParams, hopening]
  exact isScoped_documented _ true _ _ ⟨type_mem_keywords, rfl⟩ _

theorem text_ne_nil (link : Link) : link.text ≠ [] := by
  cases link <;> simp [Link.text, reexport, Text.ofString, Text.ofChars]

theorem joinLines_links_isEmpty (links : List Link) :
    (Text.joinLines (links.map Link.text)).isEmpty = links.isEmpty := by
  cases links with
  | nil => rfl
  | cons link rest =>
    rw [List.map_cons, List.isEmpty_cons]
    exact List.isEmpty_eq_false_iff.mpr (joinLines_ne_nil _ (text_ne_nil link))

-- Sections under a comment, with links in front of them if there are any.
theorem hasScope_joinSections (links : List Link) {first : Text} {texts names declared : List Text}
    (hfirst : Piece.IsProper (.comment first)) (h : HasScopes texts ⟨⟨[], names⟩, declared⟩) :
    HasScope (joinSections (first ::
      (if links.isEmpty then [] else [Text.joinLines (links.map Link.text)]) ++ texts)) ⟨⟨links, names⟩, declared⟩ := by
  cases links with
  | nil => exact ⟨_, .cons (isScoped_comment hfirst) h, rfl⟩
  | cons link rest =>
    have hsections := HasScopes.cons (isScoped_comment hfirst) (.cons (isScoped_links (link :: rest)) h)
    rw [Scope.taking_append] at hsections
    exact ⟨_, hsections, rfl⟩

-- A module that is assembled from declarations.
theorem hasScope_assemble {comment : Text} (links : List Link) {texts names declared : List Text}
    (h : HasScopes texts ⟨⟨[], names⟩, declared⟩) :
    HasScope (assemble comment (Text.joinLines (links.map Link.text)) texts) ⟨⟨links, names⟩, declared⟩ := by
  rw [assemble, joinLines_links_isEmpty]
  exact hasScope_joinSections links (isProper_banner comment) h

theorem hasScope_typesModule {module : TypesModule} {texts : List Text}
    (h : List.Forall₂ (fun text name => IsScoped text (.exporting [name])) texts module.names) :
    HasScope (module.content output texts) (.ofOutline (typesOutline module output)) := by
  have hlinks : Render.imports (sharedImports output module.path) module.declarations.notes =
      Text.joinLines ((typesOutline module output).links.map Link.text) := by
    rw [imports_eq, typesOutline, List.map_map]
    rfl
  rw [TypesModule.content, hlinks]
  exact hasScope_assemble _ (.of_names h)

theorem hasScope_tableTypes {table : Table} {texts : List Text}
    (h : (TypesModule.ofTable schema output table).declarations.outcome = .ok texts) :
    HasScope ((TypesModule.ofTable schema output table).content output texts)
      (.ofOutline (typesOutline (.ofTable schema output table) output)) := by
  refine hasScope_typesModule ?_
  simp only [TypesModule.ofTable, Types.tableDeclarations, outcome_bind_eq_ok] at h
  obtain ⟨row, -, insert, -, update, -, h⟩ := h
  obtain rfl := Except.ok.inj h
  exact .cons (isScoped_declare ..) (.cons (isScoped_declare ..) (.cons (isScoped_declare ..)
    (.cons (isScoped_filterParams table) .nil)))

theorem hasScope_routineTypes {routine : Routine} {texts : List Text}
    (h : (TypesModule.ofRoutine schema output routine).declarations.outcome = .ok texts) :
    HasScope ((TypesModule.ofRoutine schema output routine).content output texts)
      (.ofOutline (typesOutline (.ofRoutine schema output routine) output)) := by
  refine hasScope_typesModule ?_
  simp only [TypesModule.ofRoutine, Types.routineDeclarations, outcome_bind_eq_ok] at h
  obtain ⟨args, -, returns, -, h⟩ := h
  obtain rfl := Except.ok.inj h
  exact .cons (isScoped_declare ..) (.cons (isScoped_declare ..) .nil)

section Hooks

open TableHooks

theorem importNames_eq_text (typeOnly : Bool) {names : List Text} (hne : names ≠ []) (source : Text) :
    importNames typeOnly names source = Link.text (.named typeOnly (Text.sortDistinct names) source) := by
  have hsome : (Text.sortDistinct names).isEmpty = false := by
    obtain ⟨first, hfirst⟩ := List.exists_mem_of_ne_nil names hne
    exact List.isEmpty_eq_false_iff.mpr (List.ne_nil_of_mem (Text.mem_sortDistinct.mpr hfirst))
  cases typeOnly <;> simp [importNames, hsome, Link.text]

theorem queryImport_eq : queryImport = queryLink.text := by decide

theorem clientImport_eq (clientPath : Text) : clientImport clientPath = (clientLink clientPath).text := by
  simp [clientImport, clientLink, Link.text, Text.join_singleton, Text.ofString, Text.ofChars]

variable {names : TableHooks.Names}

theorem isScoped_hookImports (names : TableHooks.Names) (clientPath : Text) :
    IsScoped (TableHooks.imports names clientPath) (.taking (hookLinks names clientPath)) := by
  have heq : TableHooks.imports names clientPath =
      Text.joinLines ((hookLinks names clientPath).map Link.text) := by
    have hselects : importNames false (["relationSelects"].map Text.ofString) "./relations" =
        Link.text (.named false [Text.ofString "relationSelects"] "./relations") :=
      importNames_eq_text false (by simp) _
    have hrelationships : importNames true (["Relationships"].map Text.ofString) "./relations" =
        Link.text (.named true [Text.ofString "Relationships"] "./relations") :=
      importNames_eq_text true (by simp) _
    have hown : importNames true [names.row, names.insert, names.update, names.filters] "./types" =
        Link.text (.named true (Text.sortDistinct [names.row, names.insert, names.update, names.filters])
          "./types") :=
      importNames_eq_text true (by simp) _
    rw [TableHooks.imports, hookLinks, queryImport_eq, clientImport_eq, hown]
    by_cases h : names.withRelations
    · rw [if_pos h, if_pos h]
      exact congrArg _ (congrArg₂ _ rfl (congrArg₂ _ hselects (congrArg₂ _ hrelationships rfl)))
    · rw [if_neg h, if_neg h]
      rfl
  rw [heq]
  exact isScoped_links _

theorem isScoped_queryOptions (names : TableHooks.Names) :
    IsScoped (queryOptions names) (.exporting [names.options]) := by
  rw [queryOptions, exportType_eq]
  exact isScoped_layout_doc _ ⟨type_mem_keywords, rfl⟩ _

theorem isScoped_selectBuilder (names : TableHooks.Names) :
    IsScoped (selectBuilder names) (.declaring false names.selectFunction) := by
  have hopening : (("const " : Text) ++ names.selectFunction ++ " = (options?: " ++ names.options ++
      "): string => \x7b") = Piece.text (.declaration false "const" names.selectFunction
        (" = (options?: " ++ names.options ++ "): string => \x7b")) := by
    simp [Piece.text, Text.ofString, Text.ofChars]
  rw [selectBuilder, hopening]
  exact isScoped_layout_block ⟨const_mem_keywords, rfl⟩ _

theorem isScoped_filterHelper (hpascal : .char '\n' ∉ names.pascal) :
    IsScoped (filterHelper names) (.declaring false names.filterFunction) := by
  have hopening : (("const " : Text) ++ names.filterFunction ++ " = (query: any, params?: " ++ names.filters ++
      ") => \x7b") = Piece.text (.declaration false "const" names.filterFunction
        (" = (query: any, params?: " ++ names.filters ++ ") => \x7b")) := by
    simp [Piece.text, Text.ofString, Text.ofChars]
  rw [filterHelper, hopening]
  refine isScoped_joinElse ⟨const_mem_keywords, rfl⟩ ?_ _
  simp only [Piece.text, Names.filterFunction, Names.filters, List.mem_append, not_or]
  simp only [hpascal, not_false_eq_true, true_and, and_true]
  decide

theorem isScoped_queryHook (names : TableHooks.Names) (description hook result parameter key call : Text) :
    IsScoped (queryHook names description hook result parameter key call) (.exporting [hook]) := by
  rw [queryHook, exportConst_eq]
  exact isScoped_layout_doc _ ⟨const_mem_keywords, rfl⟩ _

theorem isScoped_mutationHook (description hook result input call : Text) :
    IsScoped (mutationHook description hook result input call) (.exporting [hook]) := by
  rw [mutationHook, exportConst_eq]
  exact isScoped_layout_doc _ ⟨const_mem_keywords, rfl⟩ _

theorem isScoped_plainFunction (description name result : Text) (parameters body : List Text) (value : Text) :
    IsScoped (plainFunction description name result parameters body value) (.exporting [name]) := by
  rw [plainFunction, exportConst_eq]
  exact isScoped_layout_doc _ ⟨const_mem_keywords, rfl⟩ _

theorem isScoped_delete (names : TableHooks.Names) :
    IsScoped (TableHooks.delete names) (.exporting ["delete" ++ names.pascal]) := by
  have hopening : (("export const delete" : Text) ++ names.pascal ++ " = async (id: " ++ names.idType ++
      "): Promise<void> => \x7b") = Piece.text (.declaration true "const" ("delete" ++ names.pascal)
        (" = async (id: " ++ names.idType ++ "): Promise<void> => \x7b")) := by
    simp [Piece.text, Text.ofString, Text.ofChars]
  rw [TableHooks.delete, hopening]
  exact isScoped_layout_doc _ ⟨const_mem_keywords, rfl⟩ _

theorem hasScope_hooks (hpascal : .char '\n' ∉ names.pascal) (clientPath : Text) (byId : Bool) :
    HasScope (joinSections (sections names clientPath byId))
      ⟨⟨hookLinks names clientPath, hookNames names byId⟩, declaredHooks names byId⟩ := by
  have hhead : HasScopes
      [TableHooks.imports names clientPath, queryOptions names, selectBuilder names, filterHelper names]
      ⟨⟨hookLinks names clientPath ++ [], [names.options]⟩,
        [names.options, names.selectFunction, names.filterFunction]⟩ :=
    .cons (isScoped_hookImports names clientPath) (.cons (isScoped_queryOptions names)
      (.cons (isScoped_selectBuilder names) (.cons (isScoped_filterHelper hpascal) .nil)))
  have hsingle : HasScopes (if byId then [useSingle names] else []) (.exporting _) :=
    .when byId (isScoped_queryHook ..)
  have hlists : HasScopes [useList names, useCreate names] (.exporting _) :=
    .cons (isScoped_queryHook ..) (.single (isScoped_mutationHook ..))
  have hupdate : HasScopes (if byId then [useUpdate names] else []) (.exporting _) :=
    .when byId (isScoped_mutationHook ..)
  have hdelete : HasScopes (if byId then [useDelete names] else []) (.exporting _) :=
    .when byId (isScoped_mutationHook ..)
  have hplainSingle : HasScopes (if byId then [getSingle names] else []) (.exporting _) :=
    .when byId (isScoped_plainFunction ..)
  have hplainLists : HasScopes [getList names, create names] (.exporting _) :=
    .cons (isScoped_plainFunction ..) (.single (isScoped_plainFunction ..))
  have hplainUpdate : HasScopes (if byId then [update names] else []) (.exporting _) :=
    .when byId (isScoped_plainFunction ..)
  have hplainDelete := HasScopes.when byId (isScoped_delete names)
  have hall := (((((((hhead.append hsingle).append hlists).append hupdate).append hdelete).append
    hplainSingle).append hplainLists).append hplainUpdate).append hplainDelete
  simp only [Scope.exporting, Scope.append_eq, Outline.append_eq, List.append_nil] at hall
  exact ⟨_, hall, rfl⟩

end Hooks

section RoutineHooks

open RoutineHooks

variable {names : RoutineHooks.Names}

theorem isScoped_routineImports (names : RoutineHooks.Names) (clientPath : Text) :
    IsScoped (RoutineHooks.imports names clientPath) (.taking (routineHookLinks names clientPath)) := by
  rw [RoutineHooks.imports, queryImport_eq, clientImport_eq, importNames_eq_text true (by simp)]
  exact isScoped_links (routineHookLinks names clientPath)

theorem hasScope_routineHooks (routine : Routine) (clientPath : Text) :
    HasScope (RoutineHooks.module routine clientPath)
      (.ofOutline ⟨routineHookLinks (.ofRoutine routine) clientPath, routineHookNames (.ofRoutine routine)⟩) := by
  have hquery : IsScoped (RoutineHooks.queryHook (.ofRoutine routine)) (.exporting ["use" ++ routine.typeName]) := by
    have hopening : (("export const use" : Text) ++ routine.typeName ++ " = (") =
        Piece.text (.declaration true "const" ("use" ++ routine.typeName) " = (") := by
      simp [Piece.text, Text.ofString, Text.ofChars]
    rw [RoutineHooks.queryHook, Names.ofRoutine, hopening]
    exact isScoped_layout_doc _ ⟨const_mem_keywords, rfl⟩ _
  have hmutation : IsScoped (RoutineHooks.mutationHook (.ofRoutine routine))
      (.exporting ["use" ++ routine.typeName ++ "Mutation"]) := by
    have hopening : (("export const use" : Text) ++ routine.typeName ++ "Mutation = (") =
        Piece.text (.declaration true "const" ("use" ++ routine.typeName ++ "Mutation") " = (") := by
      simp [Piece.text, Text.ofString, Text.ofChars]
    rw [RoutineHooks.mutationHook, Names.ofRoutine, hopening]
    exact isScoped_layout_doc _ ⟨const_mem_keywords, rfl⟩ _
  have hdirect : IsScoped (RoutineHooks.directFunction (.ofRoutine routine))
      (.exporting [Naming.directFunction routine.name]) := by
    rw [RoutineHooks.directFunction, Names.ofRoutine, exportConst_eq]
    exact isScoped_layout_doc _ ⟨const_mem_keywords, rfl⟩ _
  have hexports : HasScopes [RoutineHooks.queryHook (.ofRoutine routine),
      RoutineHooks.mutationHook (.ofRoutine routine),
      RoutineHooks.directFunction (.ofRoutine routine)] (.exporting (routineHookNames (.ofRoutine routine))) :=
    .cons hquery (.cons hmutation (.single hdirect))
  have hall := HasScopes.cons (isScoped_routineImports (.ofRoutine routine) clientPath) hexports
  rw [Scope.exporting, Scope.taking_append] at hall
  exact ⟨_, hall, rfl⟩

end RoutineHooks

section Relations

variable {table : Table}

theorem relationImports_eq (table : Text) (relationships : List Relationship) :
    Relations.imports table relationships = (relationLinks table relationships).map Link.text := by
  have htext (name source : Text) : importNames true [name] source = Link.text (.named true [name] source) := by
    rw [importNames_eq_text true (by simp)]
    rfl
  simp only [Relations.imports, relationLinks, htext]
  split <;> simp [Function.comp_def]

-- The declaration of the type of a relation.
def relationPiece (table : Text) (relationship : Relationship) : Piece :=
  let ending : Text := if relationship.isOneToOne then " | null" else "[]"
  .declaration true "type" (relationship.relationName table)
    (" = " ++ Relations.rowType relationship.referencedRelation ++ ending ++ ";")

theorem isScoped_relationTypes (table : Text) (relationships : List Relationship) :
    IsScoped (Text.joinLines (relationships.map (Relations.relationType table)))
      (.exporting (relationships.map (·.relationName table))) := by
  refine ⟨relationships.map (relationPiece table), ?_, ?_, ?_⟩
  · intro piece hpiece
    obtain ⟨relationship, -, rfl⟩ := List.mem_map.mp hpiece
    exact ⟨type_mem_keywords, rfl⟩
  · rw [List.map_map]
    refine congrArg Text.joinLines (List.map_congr_left fun relationship _ => ?_)
    cases h : relationship.isOneToOne <;>
      simp [Relations.relationType, relationPiece, Piece.text, Text.ofString, Text.ofChars, h]
  · simp only [Scope.exporting, Scope.ofPieces, Outline.ofPieces, List.flatMap_map, relationPiece, Piece.links,
      Piece.exports, Piece.declares, Scope.mk.injEq, Outline.mk.injEq]
    exact ⟨⟨(List.flatMap_eq_nil_iff.mpr fun _ _ => rfl).symm, List.map_eq_flatMap⟩, List.map_eq_flatMap⟩

theorem relations_value (table : Table) :
    (Relations.module table).value = Relations.moduleOf table.name (distinctRelationships table) := by
  have houtcome : (Relations.module table).outcome =
      .ok (Relations.moduleOf table.name (distinctRelationships table)) := by
    rw [Relations.module, outcome_bind_eq_ok]
    exact ⟨_, outcome_eq _, rfl⟩
  exact Except.ok.inj ((outcome_eq _).symm.trans houtcome)

theorem hasScope_relations (table : Table) :
    HasScope (Relations.module table).value
      (.ofOutline ⟨relationLinks table.name (distinctRelationships table), relationNames table⟩) := by
  have hinterface : IsScoped (Text.joinLines ([docComment ["All available relationships for this table"],
      Text.ofString "export interface Relationships \x7b"] ++
        (distinctRelationships table).map (Relations.interfaceMember table.name) ++ [Text.ofString "\x7d"]))
      (.exporting [Text.ofString "Relationships"]) :=
    isScoped_documented ["All available relationships for this table"] true "Relationships" " \x7b"
      ⟨interface_mem_keywords, rfl⟩ _
  have hselects : IsScoped (Text.joinLines ([docComment ["PostgREST embed strings, aliased to the relation name"],
      Text.ofString "export const relationSelects: Record<keyof Relationships, string> = \x7b"] ++
        (distinctRelationships table).map (Relations.selectEntry table.name) ++ [Text.ofString "\x7d;"]))
      (.exporting [Text.ofString "relationSelects"]) :=
    isScoped_documented ["PostgREST embed strings, aliased to the relation name"] true "relationSelects"
      ": Record<keyof Relationships, string> = \x7b" ⟨const_mem_keywords, rfl⟩ _
  have hall := HasScopes.cons (isScoped_relationTypes table.name (distinctRelationships table))
    (.cons hinterface (.single hselects))
  have houtline := hasScope_joinSections (relationLinks table.name (distinctRelationships table))
    (isProper_docComment ["Auto-generated relationship types for table: " ++ table.name]) hall
  have hempty : ((relationLinks table.name (distinctRelationships table)).map Link.text).isEmpty =
      (relationLinks table.name (distinctRelationships table)).isEmpty := List.isEmpty_map
  rw [relations_value, Relations.moduleOf, relationImports_eq, hempty]
  exact houtline

end Relations

section Indexes

theorem newline_notMem_about {name : Text} (before after : Text) (h : .char '\n' ∉ name) (hbefore : .char '\n' ∉ before)
    (hafter : .char '\n' ∉ after) : .char '\n' ∉ before ++ name ++ after := by
  simp only [List.mem_append, not_or]
  exact ⟨⟨hbefore, h⟩, hafter⟩

theorem hasScope_tableIndex {table : Table} (hname : .char '\n' ∉ table.name) :
    HasScope (TableHooks.indexModule table) (.ofOutline (indexOutline (tableIndexSources table))) := by
  have hbanner := newline_notMem_about "Auto-generated index file for the " " module" hname (by decide) (by decide)
  have hindex := @hasScope_reexportIndex _ (tableIndexSources table) hbanner (by simp [tableIndexSources])
  simpa [TableHooks.indexModule, tableIndexSources, indexOutline, Scope.taking, Scope.ofOutline] using hindex

theorem hasScope_routineIndex {routine : Routine} (hname : .char '\n' ∉ routine.name) :
    HasScope (RoutineHooks.indexModule routine)
      (.ofOutline (indexOutline (["./types", "./hooks"].map Text.ofString))) :=
  hasScope_reexportIndex (newline_notMem_about "Auto-generated index file for " " RPC function" hname (by decide)
    (by decide)) (by simp)

theorem functionsIndex_value (routines : List Routine) :
    (RoutineHooks.functionsIndex routines).value =
      reexportIndex "Auto-generated index file for RPC functions"
        ((routines.filter (!·.isPrivate)).map fun routine => Text.ofString "./" ++ routine.name) := by
  have hcollect : (RoutineHooks.functionsIndex.collect routines).outcome =
      .ok ((routines.filter (!·.isPrivate)).map fun routine => Text.ofString "./" ++ routine.name) := by
    induction routines with
    | nil => rfl
    | cons routine rest ih =>
      rw [RoutineHooks.functionsIndex.collect]
      cases hprivate : routine.isPrivate with
      | true =>
        rw [if_pos rfl, outcome_bind_eq_ok]
        refine ⟨(), rfl, ?_⟩
        rw [ih, List.filter_cons_of_neg (by simp [hprivate])]
      | false =>
        rw [if_neg (by simp), outcome_bind_eq_ok]
        refine ⟨_, ih, ?_⟩
        rw [List.filter_cons_of_pos (by simp [hprivate])]
        rfl
  have houtcome : (RoutineHooks.functionsIndex routines).outcome = _ :=
    outcome_bind_eq_ok.mpr ⟨_, hcollect, rfl⟩
  exact Except.ok.inj ((outcome_eq _).symm.trans houtcome)

theorem hasScope_functionsIndex (hsome : schema.publicRoutines ≠ []) :
    HasScope (RoutineHooks.functionsIndex schema.routines).value
      (.ofOutline (indexOutline (schema.publicRoutines.map fun routine => Text.ofString "./" ++ routine.name))) := by
  rw [functionsIndex_value]
  refine hasScope_reexportIndex (by decide) fun hnil => hsome ?_
  exact List.map_eq_nil_iff.mp hnil

-- A comment and what is exported under it.
theorem isScoped_group {title : Text} (htitle : .char '\n' ∉ title) {sources : List Text} (hne : sources ≠ []) :
    IsScoped (Text.joinLines (("// " ++ title) :: sources.map reexport)) (.taking (sources.map .all)) := by
  have hlinks : IsScoped (Text.joinLines (sources.map reexport)) (.taking (sources.map .all)) := by
    have hall := isScoped_links (sources.map Link.all)
    rw [List.map_map] at hall
    exact hall
  obtain ⟨first, rest, rfl⟩ := List.exists_cons_of_ne_nil hne
  rw [Text.joinLines, List.map_cons, Text.join_cons_cons]
  refine hlinks.under_comment (isProper_lineComment htitle) ?_
  exact joinLines_ne_nil _ (text_ne_nil (.all first))

theorem hasScopes_group {title : Text} (htitle : .char '\n' ∉ title) (sources : List Text) :
    HasScopes ((if sources.isEmpty then [] else [("// " ++ title) :: sources.map reexport]).map Text.joinLines)
      (.taking (sources.map .all)) := by
  cases sources with
  | nil => exact .nil
  | cons first rest => exact .single (isScoped_group htitle (by simp))

-- Groups of lines, each behind an empty line, are sections.
theorem joinLines_groups (first : Text) {groups : List (List Text)} (hgroups : ∀ lines ∈ groups, lines ≠ []) :
    Text.joinLines (first :: groups.flatMap ([] :: ·)) =
      Text.join "\n\n" (first :: groups.map Text.joinLines) := by
  have hmerge {lines rest : List Text} (hne : lines ≠ []) :
      Text.joinLines (Text.joinLines lines :: rest) = Text.joinLines (lines ++ rest) := by
    by_cases hrest : rest = []
    · rw [hrest, List.append_nil, Text.joinLines, Text.join_singleton]
    · rw [← List.singleton_append, joinLines_append (by simp) hrest, joinLines_append hne hrest]
      simp [Text.joinLines, Text.join_singleton]
  induction groups generalizing first with
  | nil => rfl
  | cons lines groups ih =>
    obtain ⟨hlines, hgroups⟩ := List.forall_mem_cons.mp hgroups
    obtain ⟨second, rest, heq⟩ := List.exists_cons_of_ne_nil
      (show lines ++ groups.flatMap ([] :: ·) ≠ [] by simp [hlines])
    have htail := ih (Text.joinLines lines) hgroups
    rw [hmerge hlines, heq] at htail
    rw [List.flatMap_cons, List.cons_append, heq, List.map_cons, Text.join_cons_cons, ← htail, Text.joinLines,
      Text.join_cons_cons, Text.join_cons_cons]
    simp [Text.joinLines, Text.ofString, Text.ofChars]

theorem hasScope_main (schema : Schema) (output : Path) :
    HasScope (mainFile schema output).content (.ofOutline (indexOutline (mainSources schema output))) := by
  let baseTypes : List Text := if (usedBaseTypes schema output).isEmpty then [] else ["./base-types"]
  let enums : List Text := if schema.hasEnums then ["./enums"] else []
  let shared := baseTypes ++ enums
  let functions : List Text := if schema.publicRoutines.isEmpty then [] else ["./functions"]
  let tables := schema.tables.map fun table => Text.ofString "./" ++ table.name
  let group (title : Text) (sources : List Text) : List (List Text) :=
    if sources.isEmpty then [] else [("// " ++ title) :: sources.map reexport]
  let groups := group "Re-export base types and enums" shared ++
    group "Re-export storage module" ["./storage"] ++ group "Re-export all table modules" tables ++
    group "Re-export RPC functions" functions
  have hall : HasScopes (groups.map Text.joinLines)
      (.taking (shared.map .all) ++ .taking ([Text.ofString "./storage"].map .all) ++
        .taking (tables.map .all) ++ .taking (functions.map .all)) := by
    simp only [groups, List.map_append]
    exact (((@hasScopes_group "Re-export base types and enums" (by decide) shared).append
      (@hasScopes_group "Re-export storage module" (by decide) _)).append
        (@hasScopes_group "Re-export all table modules" (by decide) tables)).append
          (@hasScopes_group "Re-export RPC functions" (by decide) functions)
  have hcontent : (mainFile schema output).content = joinSections
      ((("// " : Text) ++ "Auto-generated index file for database modules") :: groups.map Text.joinLines) := by
    have hgroups : ∀ lines ∈ groups, lines ≠ [] := by
      have hgroup (title : Text) (sources : List Text) : ∀ lines ∈ group title sources, lines ≠ [] := by
        intro lines hlines
        simp only [group] at hlines
        split at hlines
        · cases hlines
        · rw [List.mem_singleton.mp hlines]
          simp
      simp only [groups, List.mem_append]
      rintro lines (((h | h) | h) | h) <;> exact hgroup _ _ lines h
    have hflat (title : Text) (sources : List Text) : (group title sources).flatMap ([] :: ·) =
        if sources.isEmpty then [] else MainIndex.group title sources := by
      simp only [group]
      split <;> simp [MainIndex.group]
    rw [joinSections, ← joinLines_groups _ hgroups]
    simp only [groups, List.flatMap_append, hflat]
    rw [mainFile, file_content, MainIndex.module]
    simp only [shared, baseTypes, enums, tables, functions]
    by_cases hroutines : schema.publicRoutines.isEmpty <;> by_cases hused : (usedBaseTypes schema output).isEmpty <;>
      simp [hroutines, hused, Text.ofString, Text.ofChars]
  have hsections := HasScopes.cons (isScoped_comment (isProper_lineComment
    (t := "Auto-generated index file for database modules") (by decide))) hall
  refine ⟨_, ?_, hcontent⟩
  simpa [indexOutline, mainSources, Scope.taking, Scope.ofOutline, Scope.append_eq, Outline.append_eq, shared,
    baseTypes, enums, tables, functions] using hsections

end Indexes

section Shared

-- The base types are declarations of a source.
def FromSource (schema : Schema) : Prop :=
  ∀ name, schema.isBaseType name → IsDeclared name (schema.baseTypeSource name)

theorem fromSource_of_introspect {path source : Text} {declared : DeclarationFile} {schemaName rootName : Text}
    (hparse : (DeclarationFile.parse path source).outcome = .ok declared)
    (hschema : (Introspection.introspect declared schemaName rootName).outcome = .ok schema) :
    FromSource schema := by
  intro name hname
  obtain ⟨declaration, hmem, hdeclared⟩ :=
    (Introspection.introspect_describes hschema).exists_declaration hname
  rw [DeclarationFile.outcome_parse] at hparse
  obtain rfl := Except.ok.inj hparse
  cases hdeclarations : Source.parseDeclarations source with
  | none => simp [hdeclarations] at hmem
  | some declarations =>
    rw [hdeclarations] at hmem
    exact ⟨source, declarations, hdeclarations, declaration, hmem, hdeclared⟩

theorem hasScope_enums (enums : List Enumeration) (schemaName : Text) :
    HasScope (Types.enumsModule enums schemaName) (.ofOutline ⟨[], enums.map (·.typeName)⟩) := by
  have hnames : List.Forall₂ (fun text name => IsScoped text (.exporting [name]))
      (enums.map Types.enumDeclaration) (enums.map (·.typeName)) := by
    rw [List.forall₂_map_left_iff, List.forall₂_map_right_iff, List.forall₂_same]
    exact fun enumeration _ => isScoped_declare ..
  refine hasScope_joinSections [] (.inl ⟨?_, ?_⟩) (.of_names hnames)
  · exact ⟨" Auto-generated Enums from \x60" ++ schemaName ++ "\x60 schema. */",
      by simp [Text.ofString, Text.ofChars]⟩
  · exact ⟨"/** Auto-generated Enums from \x60" ++ schemaName ++ "\x60 schema. ",
      by simp [Text.ofString, Text.ofChars]⟩

theorem hasScope_baseTypes (hsource : FromSource schema) (used : List Text) :
    HasScope (Types.baseTypesModule schema used)
      ⟨⟨[], (Types.requiredBaseTypes schema used).map fun name =>
        Piece.copiedName name (schema.baseTypeSource name)⟩, Types.requiredBaseTypes schema used⟩ := by
  have hcopied {names : List Text} (hnames : ∀ name ∈ names, schema.isBaseType name) :
      HasScopes (names.map schema.baseTypeSource)
        ⟨⟨[], names.map fun name => Piece.copiedName name (schema.baseTypeSource name)⟩, names⟩ := by
    induction names with
    | nil => exact .nil
    | cons name rest ih =>
      obtain ⟨hname, hrest⟩ := List.forall_mem_cons.mp hnames
      exact .cons (isScoped_copied (hsource name hname)) (ih hrest)
  refine hasScope_assemble [] (hcopied fun name hname => ?_)
  have hdeclared := (Types.mem_requiredBaseTypes_iff.mp hname).1
  simpa [Types.baseTypeNames, Schema.isBaseType] using hdeclared

end Shared

section Storage

set_option maxRecDepth 100000 in
-- The literal is turned into its characters without going through its bytes.
theorem exists_storageTypes : ∃ chars : List Char,
    Storage.typesModule = Text.ofChars chars ∧ ReadsAs (Text.ofChars chars) (.exporting storageTypeNames) :=
  ⟨_, Text.ofString_ofList _, by decide +kernel⟩

set_option maxRecDepth 100000 in
theorem exists_storageHooks : ∃ chars : List Char,
    Storage.hooks = Text.ofChars chars ∧
      ReadsAs (Text.ofChars chars) ⟨⟨[], storageHookNames⟩, declaredStorageHooks⟩ :=
  ⟨_, Text.ofString_ofList _, by decide +kernel⟩

theorem hasScope_storageTypes : HasScope Storage.typesModule (.ofOutline ⟨[], storageTypeNames⟩) := by
  obtain ⟨chars, heq, hreads⟩ := exists_storageTypes
  rw [heq]
  exact hreads.hasScope

theorem hasScope_storageHooks (clientPath : Text) :
    HasScope (Storage.hooksModule clientPath)
      ⟨⟨storageHookLinks clientPath, storageHookNames⟩, declaredStorageHooks⟩ := by
  obtain ⟨chars, heq, hreads⟩ := exists_storageHooks
  obtain ⟨texts, hsections, htext⟩ := hreads.hasScope
  have himports : Storage.hooksModule clientPath =
      Text.joinLines ((storageHookLinks clientPath).map Link.text) ++ "\n\n" ++ Storage.hooks := by
    have hquery := @importNames_eq_text false (["useQuery", "useMutation", "useQueryClient", "QueryOptions",
      "MutationOptions"].map Text.ofString) (by simp) "@tanstack/react-query"
    have htypes := @importNames_eq_text true (["Bucket", "FileObject", "GetURLOptions", "ListOptions",
      "MoveOptions", "UploadOptions"].map Text.ofString) (by simp) "./types"
    have hqueryNames : Text.sortDistinct
        (["useQuery", "useMutation", "useQueryClient", "QueryOptions", "MutationOptions"].map Text.ofString) =
        ["MutationOptions", "QueryOptions", "useMutation", "useQuery", "useQueryClient"].map Text.ofString := by
      decide
    have htypeNames : Text.sortDistinct
        (["Bucket", "FileObject", "GetURLOptions", "ListOptions", "MoveOptions", "UploadOptions"].map
          Text.ofString) =
        ["Bucket", "FileObject", "GetURLOptions", "ListOptions", "MoveOptions", "UploadOptions"].map
          Text.ofString := by
      decide
    rw [hqueryNames] at hquery
    rw [htypeNames] at htypes
    simp only [List.map_cons, List.map_nil] at hquery htypes
    simp only [Storage.hooksModule, clientImport_eq, hquery, htypes, storageHookLinks, List.map_cons, List.map_nil]
  have hne : texts ≠ [] := by
    rintro rfl
    generalize hscope : Scope.mk ⟨[], storageHookNames⟩ declaredStorageHooks = scope at hsections
    cases hsections
    exact absurd hscope (by simp [Scope.taking, storageHookNames])
  have hall := HasScopes.cons (isScoped_links (storageHookLinks clientPath)) hsections
  rw [Scope.taking_append] at hall
  refine ⟨_, hall, ?_⟩
  obtain ⟨first, rest, rfl⟩ := List.exists_cons_of_ne_nil hne
  rw [himports, heq, htext, joinSections, joinSections, Text.join_cons_cons, List.append_assoc _ _ (Text.ofString "\n")]

end Storage

end HookGen.Generation
