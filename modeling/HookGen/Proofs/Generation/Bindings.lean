import HookGen.Proofs.Generation.Distinct
import HookGen.Proofs.Generation.Relations
import HookGen.Proofs.Generation.Written
import HookGen.Proofs.Source.Keeping

/-!
Which names are bound in a generated module: those it takes from other modules, and those it declares. The
names of its parts are made of the name of a table or function with something in front or behind, so only
few names of tables and functions give a name that is bound already.
-/

namespace HookGen

open Traced

section Affixes

-- What is put around a name.
structure Affix where
  front : Text
  back : Text
  deriving DecidableEq, Repr

namespace Affix

variable {affix other : Affix} {name word : Text}

def around (affix : Affix) (name : Text) : Text := affix.front ++ name ++ affix.back

-- The name that gives a word, if there is one.
def inside? (affix : Affix) (word : Text) : Option Text :=
  let name := (word.drop affix.front.length).take (word.length - affix.front.length - affix.back.length)
  if affix.around name = word then some name else none

theorem inside?_eq_some_iff : affix.inside? word = some name ↔ affix.around name = word := by
  have hinside : (((affix.around name).drop affix.front.length).take
      ((affix.around name).length - affix.front.length - affix.back.length)) = name := by
    have hlength : (affix.around name).length - affix.front.length - affix.back.length = name.length := by
      simp only [around, List.length_append]
      omega
    rw [hlength, around, List.append_assoc, List.drop_left, List.take_left]
  rw [inside?]
  constructor
  · intro h
    split at h
    · rename_i heq
      rwa [← Option.some.inj h]
    · cases h
  · rintro rfl
    rw [hinside, if_pos rfl]

-- Around one name, affixes of different characters give different words.
theorem around_ne (h : ¬ (affix.front ++ affix.back).Perm (other.front ++ other.back)) (name : Text) :
    affix.around name ≠ other.around name := by
  have hperm (affix : Affix) : (affix.around name).Perm (affix.front ++ affix.back ++ name) := by
    rw [around, List.append_assoc, List.append_assoc]
    exact .append_left _ List.perm_append_comm
  intro heq
  exact h ((List.perm_append_right_iff name).mp ((hperm affix).symm.trans (heq ▸ hperm other)))

end Affix

-- The names that give one of the words.
def blockedNames (words : List Text) (affixes : List Affix) : List Text :=
  affixes.flatMap fun affix => words.filterMap affix.inside?

theorem nodup_around_iff {words : List Text} {affixes : List Affix} {name : Text} (hwords : words.Nodup)
    (haffixes : affixes.Pairwise fun affix other =>
      ¬ (affix.front ++ affix.back).Perm (other.front ++ other.back)) :
    (words ++ affixes.map (·.around name)).Nodup ↔ name ∉ blockedNames words affixes := by
  have hmap : (affixes.map (·.around name)).Nodup := by
    rw [List.Nodup, List.pairwise_map]
    exact haffixes.imp fun hne => Affix.around_ne hne name
  simp only [List.nodup_append', hwords, hmap, true_and, List.disjoint_right, List.forall_mem_map, blockedNames,
    List.mem_flatMap, List.mem_filterMap, Affix.inside?_eq_some_iff, not_exists, not_and]
  exact forall₂_congr fun affix _ => ⟨fun h word hword heq => h (heq ▸ hword), fun h hmem => h _ hmem rfl⟩

theorem nodup_around (affixes : List Affix) (name : Text) (haffixes : affixes.Pairwise fun affix other =>
    ¬ (affix.front ++ affix.back).Perm (other.front ++ other.back)) : (affixes.map (·.around name)).Nodup := by
  refine (@nodup_around_iff [] affixes name List.nodup_nil haffixes).mpr ?_
  simp [blockedNames]

end Affixes

namespace Generation

open Code Render

variable {schema : Schema} {clientPath : Text} {output : Path} {files : List GeneratedFile}

-- What is put behind the names of tables and functions in the names of their types.
def rowAffixes : List Affix := [⟨[], "Row"⟩, ⟨[], "Insert"⟩, ⟨[], "Update"⟩, ⟨[], "FilterParams"⟩]

def signatureAffixes : List Affix := [⟨[], "Args"⟩, ⟨[], "Returns"⟩]

section Types

namespace TypesModule

-- What a module of types takes from the base types, and from the enums.
def takenBaseTypes (module : TypesModule) : List Text := module.declarations.notes.filterMap Note.baseType?

def takenEnums (module : TypesModule) : List Text := module.declarations.notes.filterMap Note.enumeration?

-- A module takes no base type by the name of an enum, and none of both by a name that it declares.
structure Apart (module : TypesModule) : Prop where
  taken : module.takenBaseTypes.Disjoint module.takenEnums
  baseTypes : module.takenBaseTypes.Disjoint module.names
  enums : module.takenEnums.Disjoint module.names

theorem names_typesOutline (module : TypesModule) (output : Path) :
    (typesOutline module output).links.flatMap Link.names =
      Text.sortDistinct module.takenBaseTypes ++ Text.sortDistinct module.takenEnums := by
  have hfilter (statements : List TypeImport) :
      (statements.filter (!·.names.isEmpty)).flatMap (·.names) = statements.flatMap (·.names) := by
    induction statements with
    | nil => rfl
    | cons statement rest ih =>
      rw [List.filter_cons]
      split
      · rw [List.flatMap_cons, List.flatMap_cons, ih]
      · rename_i hnone
        rw [List.flatMap_cons, ih, show statement.names = [] by simpa using hnone, List.nil_append]
  have hlinks : (typesOutline module output).links.flatMap Link.names =
      (TypeImport.ofNotes (sharedImports output module.path) module.declarations.notes).flatMap (·.names) := by
    rw [typesOutline, List.flatMap_map]
    rfl
  rw [hlinks, TypeImport.ofNotes, hfilter]
  simp [takenBaseTypes, takenEnums]

theorem nodup_names {module : TypesModule} (hmodule : module ∈ typesModules schema output) :
    module.names.Nodup := by
  rcases List.mem_append.mp hmodule with hmem | hmem
  · obtain ⟨table, -, rfl⟩ := List.mem_map.mp hmem
    exact nodup_around rowAffixes table.typeName (by decide)
  · obtain ⟨routine, -, rfl⟩ := List.mem_map.mp hmem
    exact nodup_around signatureAffixes routine.typeName (by decide)

theorem nodup_bound_iff {module : TypesModule} (hmodule : module ∈ typesModules schema output) :
    ((typesOutline module output).links.flatMap Link.names ++ module.names).Nodup ↔ module.Apart := by
  rw [names_typesOutline]
  have hdisjoint (ts names : List Text) : (Text.sortDistinct ts).Disjoint names ↔ ts.Disjoint names := by
    simp only [List.disjoint_left, Text.mem_sortDistinct]
  have hdisjoint' (ts names : List Text) : ts.Disjoint (Text.sortDistinct names) ↔ ts.Disjoint names := by
    simp only [List.disjoint_left, Text.mem_sortDistinct]
  simp only [List.nodup_append', Text.nodup_sortDistinct, nodup_names hmodule, true_and, List.disjoint_append_left,
    hdisjoint, hdisjoint']
  exact ⟨fun h => ⟨h.1, h.2.1, h.2.2⟩, fun h => ⟨h.taken, h.baseTypes, h.enums⟩⟩

end TypesModule

end Types

section Hooks

-- What the hooks of a table take from elsewhere but its types, and what is put around the name of the table in the
-- names that they declare.
def hookWords (withRelations : Bool) : List Text :=
  queryLink.names ++ [Text.ofString "supabase"] ++
    if withRelations then ["relationSelects", "Relationships"].map Text.ofString else []

def hookAffixes (byId : Bool) : List Affix :=
  let whenById (affix : Affix) : List Affix := if byId then [affix] else []
  [⟨[], "QueryOptions"⟩, ⟨"build", "Select"⟩, ⟨"apply", "Filters"⟩] ++ whenById ⟨"use", []⟩ ++
    [⟨"use", "List"⟩, ⟨"use", "Create"⟩] ++ whenById ⟨"use", "Update"⟩ ++ whenById ⟨"use", "Delete"⟩ ++
    whenById ⟨"get", []⟩ ++ [⟨"get", "List"⟩, ⟨"create", []⟩] ++ whenById ⟨"update", []⟩ ++ whenById ⟨"delete", []⟩

theorem declaredHooks_eq (names : TableHooks.Names) (byId : Bool) :
    declaredHooks names byId = (hookAffixes byId).map (·.around names.pascal) := by
  cases byId <;> simp [declaredHooks, hookNames, hookAffixes, Affix.around, TableHooks.Names.options,
    TableHooks.Names.selectFunction, TableHooks.Names.filterFunction]

theorem perm_hookLinks (names : TableHooks.Names) :
    ((hookLinks names clientPath).flatMap Link.names).Perm
      (hookWords names.withRelations ++ rowAffixes.map (·.around names.pascal)) := by
  have hrows : (Text.sortDistinct [names.row, names.insert, names.update, names.filters]).Perm
      (rowAffixes.map (·.around names.pascal)) :=
    Text.perm_sortDistinct (nodup_around rowAffixes names.pascal (by decide))
  have hcount := List.perm_iff_count.mp hrows
  rw [List.perm_iff_count]
  intro name
  rw [hookLinks, hookWords]
  split
  · simp only [List.flatMap_append, List.flatMap_cons, List.flatMap_nil, Link.names, clientLink, List.append_nil,
      List.count_append, hcount, List.map_cons, List.map_nil, List.count_cons, List.count_nil]
    omega
  · simp only [List.flatMap_cons, List.flatMap_nil, Link.names, clientLink, List.append_nil, List.count_append,
      hcount]
    omega

-- A table called like one of the hooks of queries gets a hook by the name of that, if there is a column to find
-- rows by.
def TableApart (table : Table) : Prop :=
  table.typeName ≠ "Use" ∧ (hasId table → table.typeName ≠ "Mutation" ∧ table.typeName ≠ "Query")

theorem nodup_hooks_iff (table : Table) :
    ((hookLinks (.ofTable table) clientPath).flatMap Link.names ++
      declaredHooks (.ofTable table) (hasId table)).Nodup ↔ TableApart table := by
  have hperm : ((hookLinks (.ofTable table) clientPath).flatMap Link.names ++
      declaredHooks (.ofTable table) (hasId table)).Perm (hookWords table.hasRelationships ++
        (rowAffixes ++ hookAffixes (hasId table)).map (·.around table.typeName)) := by
    rw [List.map_append, ← List.append_assoc, declaredHooks_eq]
    exact .append_right _ (perm_hookLinks _)
  rw [hperm.nodup_iff, nodup_around_iff]
  · have hblocked (withRelations byId : Bool) :
        blockedNames (hookWords withRelations) (rowAffixes ++ hookAffixes byId) =
          Text.ofString "Use" :: if byId then [Text.ofString "Mutation", "Query"] else [] := by
      revert withRelations byId
      decide +kernel
    rw [hblocked, TableApart, List.mem_cons, not_or]
    split
    · rename_i hid
      simp [hid]
    · rename_i hid
      simp [hid]
  · generalize table.hasRelationships = withRelations
    revert withRelations
    decide
  · generalize hasId table = byId
    revert byId
    decide

theorem typeName_ne_nil (name : Text) : Naming.typeName name ≠ [] := by
  rw [Naming.typeName, Naming.safeType]
  split
  · decide
  · rename_i heq
    split
    · simp [Text.ofString, Text.ofChars]
    · simp [heq]

-- The same for the hooks of a function. The plain function has a name of its own.
def routineHookWords : List Text := queryLink.names ++ [Text.ofString "supabase"]

def routineHookAffixes : List Affix := signatureAffixes ++ [⟨"use", []⟩, ⟨"use", "Mutation"⟩]

structure RoutineApart (routine : Routine) : Prop where
  query : routine.typeName ≠ "Query"
  mutation : routine.typeName ≠ "Mutation"
  direct : Naming.directFunction routine.name ∉
    routineHookWords ++ routineHookAffixes.map (·.around routine.typeName)

theorem nodup_routineHooks_iff (routine : Routine) :
    ((routineHookLinks (.ofRoutine routine) clientPath).flatMap Link.names ++
      routineHookNames (.ofRoutine routine)).Nodup ↔ RoutineApart routine := by
  have htypes : (Text.sortDistinct [routine.typeName ++ "Args", routine.typeName ++ "Returns"]).Perm
      (signatureAffixes.map (·.around routine.typeName)) :=
    Text.perm_sortDistinct (nodup_around signatureAffixes routine.typeName (by decide))
  have hperm : ((routineHookLinks (.ofRoutine routine) clientPath).flatMap Link.names ++
      routineHookNames (.ofRoutine routine)).Perm (Naming.directFunction routine.name ::
        (routineHookWords ++ routineHookAffixes.map (·.around routine.typeName))) := by
    have hcount := List.perm_iff_count.mp htypes
    rw [List.perm_iff_count]
    intro name
    simp only [routineHookLinks, routineHookNames, routineHookWords, routineHookAffixes,
      RoutineHooks.Names.ofRoutine, RoutineHooks.Names.args, RoutineHooks.Names.returns, List.flatMap_cons,
      List.flatMap_nil, Link.names, clientLink, List.append_nil, List.map_append, List.count_append,
      hcount, List.map_cons, List.map_nil, List.count_cons,
      List.count_nil, Affix.around]
    omega
  rw [hperm.nodup_iff, List.nodup_cons, nodup_around_iff (by decide) (by decide)]
  have hblocked : blockedNames routineHookWords routineHookAffixes = [Text.ofString "Mutation", "Query", []] := by
    decide +kernel
  have hsome : routine.typeName ≠ [] := typeName_ne_nil _
  rw [hblocked]
  simp only [List.mem_cons, List.not_mem_nil, or_false, not_or]
  exact ⟨fun h => ⟨h.2.2.1, h.2.1, h.1⟩, fun h => ⟨h.direct, h.mutation, h.query, hsome⟩⟩

end Hooks

section Relations

theorem distinctRelationships_eq (table : Table) : distinctRelationships table = Relations.firsts table :=
  Except.ok.inj ((outcome_eq _).symm.trans (congrArg Traced.outcome (Relations.distinct_eq table)))

-- The tables that a table refers to have row types of different names, and its relations are called neither like
-- these nor like what is declared for all of them.
structure RelationsApart (table : Table) : Prop where
  rows : ∀ first ∈ distinctRelationships table, ∀ second ∈ distinctRelationships table,
    Relations.rowType first.referencedRelation = Relations.rowType second.referencedRelation →
      first.referencedRelation = second.referencedRelation
  shared : ∀ relationship ∈ distinctRelationships table,
    relationship.relationName table.name ≠ "Relationships" ∧
      relationship.relationName table.name ≠ "relationSelects"
  relations : ∀ relationship ∈ distinctRelationships table, ∀ other ∈ distinctRelationships table,
    relationship.relationName table.name ≠ Relations.rowType other.referencedRelation

theorem perm_relationLinks (table : Text) (relationships : List Relationship) :
    ((relationLinks table relationships).flatMap Link.names).Perm
      ((Text.sortDistinct (relationships.map (·.referencedRelation))).map Relations.rowType) := by
  have hnodup := Text.nodup_sortDistinct (relationships.map (·.referencedRelation))
  rw [relationLinks]
  generalize Text.sortDistinct (relationships.map (·.referencedRelation)) = referenced at hnodup
  have hothers : ((referenced.filter (· != table)).map fun other =>
      Link.named true [Relations.rowType other] ("../" ++ other ++ "/types")).flatMap Link.names =
        (referenced.filter (· != table)).map Relations.rowType := by
    rw [List.flatMap_map]
    exact List.map_eq_flatMap.symm
  have hperm : (referenced.filter (· != table) ++ if table ∈ referenced then [table] else []).Perm referenced := by
    refine (List.perm_ext_iff_of_nodup (List.nodup_append'.mpr ⟨hnodup.filter _, ?_, ?_⟩) hnodup).mpr fun name => ?_
    · split <;> simp
    · split <;> simp
    · by_cases hname : name = table <;> simp [hname]
  refine .trans ?_ (hperm.map Relations.rowType)
  rw [List.map_append]
  split
  · rename_i hown
    rw [if_pos (by simpa using hown), List.flatMap_append, hothers]
    exact .refl _
  · rename_i hown
    rw [if_neg (by simpa using hown), hothers, List.map_nil, List.append_nil]

theorem nodup_relations_iff (table : Table) :
    ((relationLinks table.name (distinctRelationships table)).flatMap Link.names ++ relationNames table).Nodup ↔
      RelationsApart table := by
  have hnames : ((distinctRelationships table).map (·.relationName table.name)).Nodup := by
    rw [distinctRelationships_eq]
    exact Relations.nodup_firsts table
  have hrows (names : List Text) : names.map Relations.rowType |>.Disjoint
      (["Relationships", "relationSelects"].map Text.ofString) := by
    refine List.disjoint_left.mpr (List.forall_mem_map.mpr fun name _ hmem => ?_)
    have hblocked : blockedNames (["Relationships", "relationSelects"].map Text.ofString) [⟨[], "Row"⟩] = [] := by
      decide
    have hfree := (@nodup_around_iff _ [⟨[], "Row"⟩] (Naming.typeName name) (by decide)
      (List.pairwise_singleton ..)).mpr (hblocked ▸ List.not_mem_nil)
    exact (List.nodup_append'.mp hfree).2.2 hmem (List.mem_singleton.mpr rfl)
  rw [(List.Perm.append_right _ (perm_relationLinks ..)).nodup_iff, relationNames]
  simp only [List.nodup_append', List.disjoint_append_right, hnames, hrows, and_true, true_and,
    List.nodup_map_iff_inj_on (Text.nodup_sortDistinct _)]
  have hshared : (["Relationships", "relationSelects"].map Text.ofString).Nodup := by decide
  simp only [hshared, true_and, List.disjoint_left, Text.mem_sortDistinct, List.mem_map, forall_exists_index,
    and_imp, forall_apply_eq_imp_iff₂, not_exists, not_and]
  constructor
  · rintro ⟨hrows, hfixed, hrelations⟩
    refine ⟨hrows, fun relationship hmem => ⟨fun heq => ?_, fun heq => ?_⟩,
      fun relationship hmem other hother heq => hrelations other hother relationship hmem heq⟩
    · exact hfixed relationship hmem "Relationships" (by simp) heq.symm
    · exact hfixed relationship hmem "relationSelects" (by simp) heq.symm
  · intro h
    refine ⟨h.rows, fun relationship hmem => ?_, fun other hother relationship hmem heq =>
      h.relations relationship hmem other hother heq⟩
    simpa [eq_comm] using h.shared relationship hmem

end Relations

section Shared

theorem nodup_putDeclarations (declarations known : List Source.Declaration)
    (hknown : (known.map (·.name)).Nodup) :
    ((declarations.foldl (fun known declaration => Source.putDeclaration declaration known) known).map
      (·.name)).Nodup := by
  induction declarations generalizing known with
  | nil => exact hknown
  | cons declaration rest ih =>
    refine ih _ ?_
    rw [Source.map_name_putDeclaration]
    split
    · exact hknown
    · rename_i hnew
      exact List.nodup_append'.mpr ⟨hknown, List.nodup_singleton _, List.disjoint_singleton.mpr hnew⟩

theorem nodup_parseDeclarations {source : Text} {declarations : List Source.Declaration}
    (h : Source.parseDeclarations source = some declarations) : (declarations.map (·.name)).Nodup := by
  obtain ⟨parsed, -, rfl⟩ := Option.map_eq_some_iff.mp h
  exact nodup_putDeclarations parsed [] List.nodup_nil

-- Every base type is required once.
theorem nodup_requiredBaseTypes {path source : Text} {declared : DeclarationFile} {schemaName rootName : Text}
    (hparse : (DeclarationFile.parse path source).outcome = .ok declared)
    (hschema : (Introspection.introspect declared schemaName rootName).outcome = .ok schema) (used : List Text) :
    (Types.requiredBaseTypes schema used).Nodup := by
  refine List.Nodup.filter _ ?_
  rw [(Introspection.introspect_describes hschema).baseTypes, Introspection.baseTypes, List.map_map]
  rw [DeclarationFile.outcome_parse] at hparse
  obtain rfl := Except.ok.inj hparse
  refine .sublist (.map _ List.filter_sublist) ?_
  cases hdeclarations : Source.parseDeclarations source with
  | none => exact List.nodup_nil
  | some declarations => exact nodup_parseDeclarations hdeclarations

end Shared

section Modules

-- The names of a schema give no name twice in one module.
structure BoundOnce (schema : Schema) (output : Path) : Prop where
  types : ∀ module ∈ typesModules schema output, module.Apart
  hooks : ∀ table ∈ schema.tables, TableApart table
  relations : ∀ table ∈ schema.tables, table.hasRelationships → RelationsApart table
  routines : ∀ routine ∈ schema.publicRoutines, RoutineApart routine
  enums : schema.hasEnums → (schema.enums.map (·.typeName)).Nodup

-- An index binds no names.
theorem nodup_index (directory : List Text) (name : Text) (sources : List Text) :
    (Module.scoped ⟨directory, name, indexOutline sources⟩).scope.bound.Nodup := by
  have hnone : (indexOutline sources).links.flatMap Link.names = [] := by
    rw [indexOutline, List.flatMap_map]
    exact List.flatMap_eq_nil_iff.mpr fun _ _ => rfl
  refine List.nodup_append'.mpr ⟨?_, List.nodup_nil, List.disjoint_nil_right _⟩
  exact hnone ▸ List.nodup_nil

theorem nodup_tableScopes_iff {table : Table} (hmem : table ∈ schema.tables) :
    (∀ module ∈ tableScopes schema clientPath output table, module.scope.bound.Nodup) ↔
      (TypesModule.ofTable schema output table).Apart ∧ TableApart table ∧
        (table.hasRelationships → RelationsApart table) := by
  rw [← TypesModule.nodup_bound_iff (List.mem_append_left _ (List.mem_map_of_mem hmem)),
    ← @nodup_hooks_iff clientPath, ← nodup_relations_iff, tableScopes_eq]
  simp only [List.forall_mem_append, List.forall_mem_cons, List.not_mem_nil, false_implies, implies_true,
    nodup_index, and_true, and_assoc]
  refine and_congr Iff.rfl (and_congr Iff.rfl ?_)
  split
  · rename_i hsome
    rw [List.forall_mem_singleton, forall_prop_of_true hsome]
    rfl
  · rename_i hnone
    simp [hnone]

theorem nodup_routineScopes_iff {routine : Routine} (hmem : routine ∈ schema.publicRoutines) :
    (∀ module ∈ (routineModules schema clientPath output routine).map Module.scoped, module.scope.bound.Nodup) ↔
      (TypesModule.ofRoutine schema output routine).Apart ∧ RoutineApart routine := by
  rw [← TypesModule.nodup_bound_iff (List.mem_append_right _ (List.mem_map_of_mem hmem)),
    ← @nodup_routineHooks_iff clientPath, routineModules]
  simp only [List.map_cons, List.map_nil, List.forall_mem_cons, List.not_mem_nil, false_implies, implies_true,
    nodup_index, and_true]
  rfl

-- What there is one of binds no name twice but for the enums.
theorem nodup_commonScopes_iff
    (hbase : (Types.requiredBaseTypes schema (usedBaseTypes schema output)).Nodup) :
    (∀ module ∈ commonScopes schema clientPath output, module.scope.bound.Nodup) ↔
      (schema.hasEnums → (schema.enums.map (·.typeName)).Nodup) := by
  have hfunctions : ∀ module ∈ (functionsModules schema).map Module.scoped, module.scope.bound.Nodup := by
    rw [functionsModules]
    split
    · simp
    · exact List.forall_mem_singleton.mpr (nodup_index ..)
  have hstorage : ∀ module ∈ storageScopes clientPath, module.scope.bound.Nodup := by
    have htypes : storageTypeNames.Nodup := by decide
    have hhooks : ((storageHookLinks clientPath).flatMap Link.names ++ declaredStorageHooks).Nodup := by
      have hlinks : (storageHookLinks clientPath).flatMap Link.names =
          (storageHookLinks []).flatMap Link.names := rfl
      rw [hlinks]
      decide +kernel
    simp only [storageScopes_eq, List.forall_mem_cons, List.not_mem_nil, false_implies, implies_true, nodup_index,
      and_true]
    exact ⟨htypes, hhooks⟩
  have hbaseTypes : ∀ module ∈ baseTypesScopes schema output, module.scope.bound.Nodup := by
    rw [baseTypesScopes, baseTypesModules]
    split
    · simp
    · exact List.forall_mem_singleton.mpr hbase
  have henums : (∀ module ∈ (enumsModules schema).map Module.scoped, module.scope.bound.Nodup) ↔
      (schema.hasEnums → (schema.enums.map (·.typeName)).Nodup) := by
    rw [enumsModules]
    split
    · rename_i hsome
      rw [forall_prop_of_true hsome]
      exact List.forall_mem_singleton
    · rename_i hnone
      simp [hnone]
  rw [← henums, commonScopes]
  simp only [List.forall_mem_append, List.forall_mem_singleton, nodup_index, and_true]
  exact ⟨fun h => h.2, fun h => ⟨⟨⟨hfunctions, hstorage⟩, hbaseTypes⟩, h⟩⟩

theorem nodup_scopes_iff (hbase : (Types.requiredBaseTypes schema (usedBaseTypes schema output)).Nodup) :
    (∀ module ∈ scopes schema clientPath output, module.scope.bound.Nodup) ↔ BoundOnce schema output := by
  have htables : (∀ module ∈ schema.tables.flatMap (tableScopes schema clientPath output),
      module.scope.bound.Nodup) ↔
      ∀ table ∈ schema.tables, (TypesModule.ofTable schema output table).Apart ∧ TableApart table ∧
        (table.hasRelationships → RelationsApart table) := by
    rw [List.forall_mem_flatMap]
    exact forall₂_congr fun _ hmem => nodup_tableScopes_iff hmem
  have hroutines : (∀ module ∈ schema.publicRoutines.flatMap (fun routine =>
      (routineModules schema clientPath output routine).map Module.scoped), module.scope.bound.Nodup) ↔
      ∀ routine ∈ schema.publicRoutines, (TypesModule.ofRoutine schema output routine).Apart ∧
        RoutineApart routine := by
    rw [List.forall_mem_flatMap]
    exact forall₂_congr fun _ hmem => nodup_routineScopes_iff hmem
  rw [scopes, List.forall_mem_append, List.forall_mem_append, htables, hroutines, nodup_commonScopes_iff hbase]
  constructor
  · rintro ⟨⟨htable, hroutine⟩, henums⟩
    refine ⟨?_, fun table hmem => (htable table hmem).2.1, fun table hmem => (htable table hmem).2.2,
      fun routine hmem => (hroutine routine hmem).2, henums⟩
    rw [typesModules, List.forall_mem_append, List.forall_mem_map, List.forall_mem_map]
    exact ⟨fun table hmem => (htable table hmem).1, fun routine hmem => (hroutine routine hmem).1⟩
  · intro h
    have htypes := h.types
    rw [typesModules, List.forall_mem_append, List.forall_mem_map, List.forall_mem_map] at htypes
    exact ⟨⟨fun table hmem => ⟨htypes.1 table hmem, h.hooks table hmem, h.relations table hmem⟩,
      fun routine hmem => ⟨htypes.2 routine hmem, h.routines routine hmem⟩⟩, h.enums⟩

-- No name is bound twice in a file, as it is spelled.
def Unambiguous (schema : Schema) (clientPath : Text) (output : Path) (file : GeneratedFile) : Prop :=
  ∀ module ∈ scopes schema clientPath output, Spelled output module file → module.scope.bound.Nodup

theorem exists_ambiguous (hcovers : Covers (Spelled output) (scopes schema clientPath output) files)
    {module : ScopedModule} (hmodule : module ∈ scopes schema clientPath output) (h : ¬ module.scope.bound.Nodup) :
    ∃ file ∈ files, file.path = (module.path output).text ∧ ¬ Unambiguous schema clientPath output file := by
  obtain ⟨file, hfile, hspelled⟩ := hcovers.present module hmodule
  exact ⟨file, hfile, hspelled.path, fun hunambiguous => h (hunambiguous module hmodule hspelled)⟩

-- Every generated file but the lists of relationships is spelled as one of the modules, and no name is bound twice
-- in any of them exactly when the names of the schema are apart. Then an enum is known by the name of its type.
theorem unambiguous_iff_boundOnce {path source schemaName rootName out : Text} {declared : DeclarationFile}
    (hparse : (DeclarationFile.parse path source).outcome = .ok declared)
    (hschema : (Introspection.introspect declared schemaName rootName).outcome = .ok schema)
    (hplain : PlainNames schema) (hdistinct : DistinctNames schema) (hfree : Unreserved schema)
    (hfiles : (generate schema clientPath (.ofText out)).outcome = .ok files) :
    (∀ file ∈ files, IsList file ∨ ∃ module ∈ scopes schema clientPath (.ofText out),
      Spelled (.ofText out) module file) ∧
    ((∀ file ∈ files, Unambiguous schema clientPath (.ofText out) file) ↔ BoundOnce schema (.ofText out)) ∧
    (BoundOnce schema (.ofText out) → ∀ first ∈ schema.enums, ∀ second ∈ schema.enums,
      first.typeName = second.typeName → first = second) := by
  obtain ⟨assigned, hassigned, -, heq⟩ := assignments_distinct_iff hdistinct hfiles
  obtain rfl := heq.mpr hfree
  have hcovers := covers_scopes hplain (fromSource_of_introspect hparse hschema) hassigned
  have hscopes := @nodup_scopes_iff schema clientPath (.ofText out) (nodup_requiredBaseTypes hparse hschema _)
  refine ⟨hcovers.held, ?_, fun h first hfirst second hsecond heq => ?_⟩
  · rw [← hscopes]
    constructor
    · intro h module hmodule
      obtain ⟨file, hfile, hspelled⟩ := hcovers.present module hmodule
      exact h file hfile module hmodule hspelled
    · exact fun h file _ module hmodule _ => h module hmodule
  · have hsome := (Introspection.introspect_describes hschema).enums (List.ne_nil_of_mem hfirst)
    exact List.inj_on_of_nodup_map (h.enums hsome) hfirst hsecond heq

end Modules

section Sample

-- A table with a column to find rows by that is called like a hook of queries, and two enums whose types get one name.
def twinsSource : Text :=
  "type Database=\x7bpublic:\x7bTables:\x7bquery:\x7bRow:\x7bid:number\x7d\x7d\x7d," ++
  "Enums:\x7b'a-b':'x',a_b:'y'\x7d\x7d\x7d"

def twinsEnums : Text := Text.joinLines (["/** Auto-generated Enums from \x60public\x60 schema. */", "",
  "export type AB = \"x\";", "", "export type AB = \"y\";", ""].map Text.ofString)

set_option maxRecDepth 4000 in
theorem twins_generated : (Generated.of? twinsSource "@/lib/client" "out" fun schema files =>
    schema.tables.map (fun table => (table.name, table.typeName, hasId table)) =
      [(Text.ofString "query", Text.ofString "Query", true)] ∧ schema.publicRoutines.isEmpty ∧ schema.hasEnums ∧
    schema.enums.map (·.typeName) = ["AB", "AB"].map Text.ofString ∧
    (files.filter (·.path = Text.ofString "out/enums.ts")).map (·.content) = [twinsEnums]).isSome := by
  have hsource : twinsSource = Text.ofChars _ ++ Text.ofChars _ :=
    congrArg₂ (· ++ ·) (Text.ofString_ofList _) (Text.ofString_ofList _)
  rw [hsource]
  decide +kernel

def twins := (Generated.of? twinsSource "@/lib/client" "out" _).get twins_generated

theorem twins_routines : twins.schema.publicRoutines = [] := List.isEmpty_iff.mp twins.meets.2.1

theorem twins_tables : ∃ table, twins.schema.tables = [table] ∧ table.name = "query" ∧ table.typeName = "Query" ∧
    hasId table := by
  obtain ⟨table, htables, htable⟩ := List.map_eq_singleton_iff.mp twins.meets.1
  obtain ⟨hname, htype⟩ := Prod.mk.inj htable
  exact ⟨table, htables, hname, Prod.mk.inj htype⟩

theorem twins_names : PlainNames twins.schema ∧ DistinctNames twins.schema ∧ Unreserved twins.schema := by
  obtain ⟨table, htables, hname, -⟩ := twins_tables
  have htable (p : Text → Prop) (h : p "query") : ∀ table ∈ twins.schema.tables, p table.name := by
    rw [htables, List.forall_mem_singleton, hname]
    exact h
  have hroutine (p : Routine → Prop) : ∀ routine ∈ twins.schema.publicRoutines, p routine := by
    simp [twins_routines]
  have hplain : PlainNames twins.schema := ⟨htable IsPlain (by decide), hroutine _⟩
  exact ⟨hplain, ⟨hplain.proper, by simp [htables], by simp [twins_routines]⟩, htable (· ≠ "storage") (by decide),
    fun _ _ _ => twins_routines⟩

theorem unambiguous_iff_boundOnce_twins :
    (DeclarationFile.parse "database.ts" twinsSource).outcome = .ok ⟨"database.ts", twins.declarations⟩ ∧
    (Introspection.introspect ⟨"database.ts", twins.declarations⟩ "public" "Database").outcome = .ok twins.schema ∧
    PlainNames twins.schema ∧ DistinctNames twins.schema ∧ Unreserved twins.schema ∧
    (generate twins.schema "@/lib/client" (.ofText "out")).outcome = .ok twins.files ∧
    ((∀ file ∈ twins.files, Unambiguous twins.schema "@/lib/client" (.ofText "out") file) ↔
      BoundOnce twins.schema (.ofText "out")) :=
  ⟨twins.parsed, twins.introspected, twins_names.1, twins_names.2.1, twins_names.2.2, twins.generated,
    (unambiguous_iff_boundOnce twins.parsed twins.introspected twins_names.1 twins_names.2.1 twins_names.2.2
      twins.generated).2.1⟩

-- The hooks of the table declare a hook that they take from elsewhere, and both enums are declared by one name.
theorem twins_ambiguous :
    Source.parseDeclarations twinsSource = some twins.declarations ∧
    (Introspection.introspect ⟨"database.ts", twins.declarations⟩ "public" "Database").outcome = .ok twins.schema ∧
    (generate twins.schema "@/lib/client" (.ofText "out")).outcome = .ok twins.files ∧
    (∃ file ∈ twins.files, file.path = "out/query/hooks.ts" ∧
      ¬ Unambiguous twins.schema "@/lib/client" (.ofText "out") file) ∧
    ∃ file ∈ twins.files, file.path = "out/enums.ts" ∧ file.content = twinsEnums ∧
      ¬ Unambiguous twins.schema "@/lib/client" (.ofText "out") file := by
  obtain ⟨-, -, hsome, henums, hcontent⟩ := twins.meets
  obtain ⟨table, htables, hname, htype, hid⟩ := twins_tables
  obtain ⟨hplain, hdistinct, hfree⟩ := twins_names
  obtain ⟨assigned, hassigned, -, heq⟩ := assignments_distinct_iff hdistinct twins.generated
  have hcovers := covers_scopes hplain (fromSource_of_introspect twins.parsed twins.introspected)
    (heq.mpr hfree ▸ hassigned)
  have hhooks : (⟨⟨[table.name], "hooks", hookLinks (.ofTable table) "@/lib/client", hookNames (.ofTable table)
      (hasId table)⟩, declaredHooks (.ofTable table) (hasId table)⟩ : ScopedModule) ∈
        scopes twins.schema "@/lib/client" (.ofText "out") := by
    simp [scopes, htables, tableScopes_eq]
  have henumTypes : Module.scoped ⟨[], "enums", [], twins.schema.enums.map (·.typeName)⟩ ∈
      scopes twins.schema "@/lib/client" (.ofText "out") := by
    simp [scopes, commonScopes, enumsModules, hsome]
  obtain ⟨hooks, hhooks, hhooksPath, hambiguous⟩ := exists_ambiguous hcovers hhooks fun hnodup =>
    (((nodup_hooks_iff table).mp hnodup).2 hid).2 htype
  obtain ⟨enums, henums, henumsPath, hambiguous'⟩ := exists_ambiguous hcovers henumTypes fun hnodup => by
    rw [henums] at hnodup
    exact absurd hnodup (by decide)
  refine ⟨twins.read, twins.introspected, twins.generated, ⟨hooks, hhooks, ?_, hambiguous⟩, enums, henums,
    henumsPath, ?_, hambiguous'⟩
  · rw [hhooksPath, hname]
    rfl
  · have hmem : enums.content ∈ (twins.files.filter (·.path = Text.ofString "out/enums.ts")).map (·.content) :=
      List.mem_map_of_mem (List.mem_filter.mpr ⟨henums, decide_eq_true henumsPath⟩)
    rw [hcontent] at hmem
    exact List.mem_singleton.mp hmem

end Sample

end Generation

end HookGen
