import HookGen.Proofs.Generation.Outlines

/-!
Which generated file holds which module. Every file but the lists of relationships holds one, and every
module is held by a file at its place.
-/

namespace HookGen.Generation

open Code Traced

variable {schema : Schema} {clientPath : Text} {output : Path} {α : Type}

-- The names of tables and functions are plain.
structure PlainNames (schema : Schema) : Prop where
  tables : ∀ table ∈ schema.tables, IsPlain table.name
  routines : ∀ routine ∈ schema.publicRoutines, IsPlain routine.name

theorem PlainNames.proper (h : PlainNames schema) : ProperNames schema :=
  ⟨fun table hmem => (h.tables table hmem).isName, fun routine hmem => (h.routines routine hmem).isName⟩

-- A file that holds a module at its place.
structure Written (output : Path) (module : Module) (file : GeneratedFile) : Prop where
  path : file.path = (module.path output).text
  outline : HasOutline file.content module.outline

-- The list of the relationships of a table, which is no module.
def IsList (file : GeneratedFile) : Prop := Text.ofString ".json" <:+ file.path

-- A module with all names that it declares. Most modules export them all.
structure ScopedModule extends Module where
  declared : List Text

def ScopedModule.scope (module : ScopedModule) : Scope := ⟨module.outline, module.declared⟩

def Module.scoped (module : Module) : ScopedModule := ⟨module, module.outline.exports⟩

def tableScopes (schema : Schema) (clientPath : Text) (output : Path) (table : Table) : List ScopedModule :=
  (tableModules schema clientPath output table).map fun module =>
    if module.name = Text.ofString "hooks" then ⟨module, declaredHooks (.ofTable table) (hasId table)⟩
    else module.scoped

def storageScopes (clientPath : Text) : List ScopedModule :=
  (storageModules clientPath).map fun module =>
    if module.name = Text.ofString "hooks" then ⟨module, declaredStorageHooks⟩ else module.scoped

def baseTypesScopes (schema : Schema) (output : Path) : List ScopedModule :=
  (baseTypesModules schema output).map fun module =>
    ⟨module, Types.requiredBaseTypes schema (usedBaseTypes schema output)⟩

-- The scopes of the modules that there is one of, and of all modules.
def commonScopes (schema : Schema) (clientPath : Text) (output : Path) : List ScopedModule :=
  (functionsModules schema).map Module.scoped ++ storageScopes clientPath ++ baseTypesScopes schema output ++
    (enumsModules schema).map Module.scoped ++
    [Module.scoped ⟨[], "index", indexOutline (mainSources schema output)⟩]

def scopes (schema : Schema) (clientPath : Text) (output : Path) : List ScopedModule :=
  schema.tables.flatMap (tableScopes schema clientPath output) ++
    schema.publicRoutines.flatMap (fun routine =>
      (routineModules schema clientPath output routine).map Module.scoped) ++
    commonScopes schema clientPath output

theorem map_toModule_map {modules : List Module} {f : Module → ScopedModule}
    (h : ∀ module, (f module).toModule = module) : (modules.map f).map (·.toModule) = modules := by
  rw [List.map_map]
  exact List.map_id'' h modules

theorem map_toModule_scopes :
    (scopes schema clientPath output).map (·.toModule) = modules schema clientPath output := by
  have hoverride (declared : List Text) (module : Module) :
      (if module.name = Text.ofString "hooks" then ScopedModule.mk module declared
        else module.scoped).toModule = module := by
    split <;> rfl
  have htables (table : Table) : (tableScopes schema clientPath output table).map (·.toModule) =
      tableModules schema clientPath output table := map_toModule_map (hoverride _)
  have hstorage : (storageScopes clientPath).map (·.toModule) = storageModules clientPath :=
    map_toModule_map (hoverride _)
  have hbase : (baseTypesScopes schema output).map (·.toModule) = baseTypesModules schema output :=
    map_toModule_map fun _ => rfl
  have hscoped (modules : List Module) : (modules.map Module.scoped).map (·.toModule) = modules :=
    map_toModule_map fun _ => rfl
  simp only [scopes, commonScopes, List.map_append, List.map_flatMap, htables, hscoped, hstorage, hbase, modules,
    List.append_assoc, List.map_cons, List.map_nil]
  rfl

-- A file that has the scope of a module, at its place.
structure Spelled (output : Path) (module : ScopedModule) (file : GeneratedFile) : Prop where
  path : file.path = (module.path output).text
  scope : HasScope file.content module.scope

theorem Spelled.written {module : ScopedModule} {file : GeneratedFile} (h : Spelled output module file) :
    Written output module.toModule file :=
  ⟨h.path, h.scope.hasOutline⟩

-- Files that hold some things or lists of relationships, and nothing without a file.
structure Covers (holds : α → GeneratedFile → Prop) (items : List α) (files : List GeneratedFile) : Prop where
  held : ∀ file ∈ files, IsList file ∨ ∃ item ∈ items, holds item file
  present : ∀ item ∈ items, ∃ file ∈ files, holds item file

namespace Covers

variable {holds : α → GeneratedFile → Prop} {items items' : List α} {files files' : List GeneratedFile}

theorem nil : Covers holds [] [] := ⟨by simp, by simp⟩

theorem append (h : Covers holds items files) (h' : Covers holds items' files') :
    Covers holds (items ++ items') (files ++ files') where
  held := by
    intro file hfile
    rcases List.mem_append.mp hfile with hmem | hmem
    · refine (h.held file hmem).imp_right ?_
      rintro ⟨item, hitem, hholds⟩
      exact ⟨item, List.mem_append_left _ hitem, hholds⟩
    · refine (h'.held file hmem).imp_right ?_
      rintro ⟨item, hitem, hholds⟩
      exact ⟨item, List.mem_append_right _ hitem, hholds⟩
  present := by
    intro item hitem
    rcases List.mem_append.mp hitem with hmem | hmem
    · obtain ⟨file, hfile, hholds⟩ := h.present item hmem
      exact ⟨file, List.mem_append_left _ hfile, hholds⟩
    · obtain ⟨file, hfile, hholds⟩ := h'.present item hmem
      exact ⟨file, List.mem_append_right _ hfile, hholds⟩

theorem single {item : α} {file : GeneratedFile} (h : holds item file) : Covers holds [item] [file] :=
  ⟨by simpa using Or.inr h, by simpa using h⟩

theorem cons {item : α} {file : GeneratedFile} (h : holds item file) (h' : Covers holds items files) :
    Covers holds (item :: items) (file :: files) := (single h).append h'

theorem list {file : GeneratedFile} (h : IsList file) : Covers holds [] [file] :=
  ⟨by simpa using h, by simp⟩

theorem map {β : Type} {holds' : β → GeneratedFile → Prop} {f : α → β} (h : Covers holds items files)
    (hholds : ∀ item file, holds item file → holds' (f item) file) : Covers holds' (items.map f) files where
  held := by
    intro file hfile
    refine (h.held file hfile).imp_right ?_
    rintro ⟨item, hitem, hheld⟩
    exact ⟨f item, List.mem_map_of_mem hitem, hholds item file hheld⟩
  present := by
    rw [List.forall_mem_map]
    intro item hitem
    obtain ⟨file, hfile, hheld⟩ := h.present item hitem
    exact ⟨file, hfile, hholds item file hheld⟩

-- The files of one thing after the other.
theorem flatMap {β : Type} {filesOf : β → List GeneratedFile → Prop} {itemsOf : β → List α} {owners : List β}
    {parts : List (List GeneratedFile)} (h : List.Forall₂ filesOf owners parts)
    (howners : ∀ owner ∈ owners, ∀ part, filesOf owner part → Covers holds (itemsOf owner) part) :
    Covers holds (owners.flatMap itemsOf) parts.flatten := by
  induction h with
  | nil => exact nil
  | cons hfirst _ ih =>
    obtain ⟨howner, hrest⟩ := List.forall_mem_cons.mp howners
    exact (howner _ hfirst).append (ih hrest)

end Covers

-- A file in a directory below the output directory.
theorem spelled_child {directory : Path} {places declared : List Text} {name fileName content : Text}
    {outline : Outline} (hdirectory : directory = ⟨output.anchor, output.names ++ places⟩)
    (hname : fileName = name ++ ".ts") (hproper : IsName fileName) (h : HasScope content ⟨outline, declared⟩) :
    Spelled output ⟨⟨places, name, outline⟩, declared⟩ (file (directory.child fileName) content) where
  path := by
    rw [hdirectory, file, Path.child_of_isName _ hproper, Module.path, Module.place, List.append_assoc, hname]
  scope := h

theorem tableScopes_eq (table : Table) : tableScopes schema clientPath output table =
    [Module.scoped ⟨[table.name], "types", typesOutline (.ofTable schema output table) output⟩,
      ⟨⟨[table.name], "hooks", hookLinks (.ofTable table) clientPath, hookNames (.ofTable table) (hasId table)⟩,
        declaredHooks (.ofTable table) (hasId table)⟩] ++
    (if table.hasRelationships then
      [Module.scoped ⟨[table.name], "relations", relationLinks table.name (distinctRelationships table),
        relationNames table⟩]
    else []) ++
    [Module.scoped ⟨[table.name], "index", indexOutline (tableIndexSources table)⟩] := by
  rw [tableScopes, tableModules]
  split <;> rfl

theorem storageScopes_eq (clientPath : Text) : storageScopes clientPath = [
    Module.scoped ⟨["storage"], "types", [], storageTypeNames⟩,
    ⟨⟨["storage"], "hooks", storageHookLinks clientPath, storageHookNames⟩, declaredStorageHooks⟩,
    Module.scoped ⟨["storage"], "index", indexOutline (["./types", "./hooks"].map Text.ofString)⟩] := rfl

theorem TableFiles.covers {table : Table} (hname : IsPlain table.name) {files : List GeneratedFile}
    (h : TableFiles schema clientPath output table files) :
    Covers (Spelled output) (tableScopes schema clientPath output table) files := by
  have hdirectory := Path.child_of_isName output hname.isName
  obtain ⟨htypes, hmodule⟩ := h
  rename_i texts hooks
  have hhooks : HasScope hooks ⟨⟨hookLinks (.ofTable table) clientPath, hookNames (.ofTable table) (hasId table)⟩,
      declaredHooks (.ofTable table) (hasId table)⟩ := by
    rw [TableHooks.module] at hmodule
    cases hid : table.hasIdColumn with
    | error e => simp [hid] at hmodule
    | ok byId =>
      rw [hid] at hmodule
      rw [hasId, hid, ← Except.ok.inj hmodule]
      exact hasScope_hooks (Naming.newline_notMem_typeName table.name) clientPath byId
  rw [tableScopes_eq]
  refine Covers.append (.append (.cons ?_ (.single ?_)) ?_) (.single ?_)
  · exact spelled_child hdirectory (by decide) isModuleName_types.isName (hasScope_tableTypes htypes)
  · exact spelled_child hdirectory (by decide) isModuleName_hooks.isName hhooks
  · split
    · refine .cons ?_ (.list ?_)
      · exact spelled_child hdirectory (by decide) isModuleName_relations.isName (hasScope_relations table)
      · exact (show Text.ofString ".json" <:+ "relationships.json" by decide).trans
          (lastName_child _ isModuleName_relationships.isName).suffix
    · exact .nil
  · exact spelled_child hdirectory (by decide) isModuleName_index.isName (hasScope_tableIndex hname.no_newline)

theorem RoutineFiles.covers {routine : Routine} (hname : IsPlain routine.name) {files : List GeneratedFile}
    (h : RoutineFiles schema clientPath output routine files) :
    Covers (Spelled output) ((routineModules schema clientPath output routine).map Module.scoped) files := by
  have hdirectory : (functionsPath output).child routine.name =
      ⟨output.anchor, output.names ++ [Text.ofString "functions", routine.name]⟩ := by
    rw [functionsPath, Path.child_of_isName output isName_functions, Path.child_of_isName _ hname.isName,
      List.append_assoc]
    rfl
  obtain ⟨htypes⟩ := h
  refine .cons ?_ (.cons ?_ (.single ?_))
  · exact spelled_child hdirectory (by decide) isModuleName_types.isName (hasScope_routineTypes htypes)
  · exact spelled_child hdirectory (by decide) isModuleName_hooks.isName (hasScope_routineHooks routine clientPath)
  · exact spelled_child hdirectory (by decide) isModuleName_index.isName (hasScope_routineIndex hname.no_newline)

theorem covers_functionsFiles :
    Covers (Spelled output) ((functionsModules schema).map Module.scoped) (functionsFiles schema output) := by
  rw [functionsModules, functionsFiles]
  split
  · exact .nil
  · rename_i hsome
    refine .single (spelled_child (Path.child_of_isName output isName_functions) (by decide)
      isModuleName_index.isName (hasScope_functionsIndex ?_))
    simpa using hsome

theorem covers_storageFiles : Covers (Spelled output) (storageScopes clientPath) (storageFiles clientPath output) := by
  have hdirectory := Path.child_of_isName output isName_storage
  simp only [storageScopes_eq, storageFiles, Storage.modules, List.map_cons, List.map_nil]
  refine .cons ?_ (.cons ?_ (.single ?_))
  · exact spelled_child hdirectory (by decide) isModuleName_types.isName hasScope_storageTypes
  · exact spelled_child hdirectory (by decide) isModuleName_hooks.isName (hasScope_storageHooks clientPath)
  · exact spelled_child hdirectory (by decide) isModuleName_index.isName
      (hasScope_reexportIndex (by decide) (by simp))

theorem covers_commonFiles (hsource : FromSource schema) :
    Covers (Spelled output) (commonScopes schema clientPath output) (commonFiles schema clientPath output) := by
  have hdirectory : output = ⟨output.anchor, output.names ++ []⟩ := by rw [List.append_nil]
  have hbase : Covers (Spelled output) (baseTypesScopes schema output) (baseTypesFiles schema output) := by
    rw [baseTypesScopes, baseTypesModules, baseTypesFiles]
    split
    · exact .nil
    · exact .single (spelled_child hdirectory (by decide) isModuleName_baseTypes.isName
        (hasScope_baseTypes hsource _))
  have henums : Covers (Spelled output) ((enumsModules schema).map Module.scoped) (enumsFiles schema output) := by
    rw [enumsModules, enumsFiles]
    split
    · exact .single (spelled_child hdirectory (by decide) isModuleName_enums.isName
        (hasScope_enums schema.enums schema.name))
    · exact .nil
  have hmain : Spelled output (Module.scoped ⟨[], "index", indexOutline (mainSources schema output)⟩)
      (mainFile schema output) :=
    spelled_child hdirectory (by decide) isModuleName_index.isName (hasScope_main schema output)
  exact (((covers_functionsFiles.append covers_storageFiles).append hbase).append henums).append (.single hmain)

-- The files of a generation have the scopes of its modules, and so they hold them.
theorem covers_scopes (hnames : PlainNames schema) (hsource : FromSource schema) {files : List GeneratedFile}
    (h : (assignments schema clientPath output).outcome = .ok files) :
    Covers (Spelled output) (scopes schema clientPath output) files := by
  obtain ⟨tables, routines, hassigned, rfl⟩ := assignments_eq_ok h
  have htables := Covers.flatMap hassigned.tables fun table hmem _ htable =>
    TableFiles.covers (hnames.tables table hmem) htable
  have hroutines := Covers.flatMap hassigned.routines fun routine hmem _ hroutine =>
    RoutineFiles.covers (hnames.routines routine hmem) hroutine
  exact (htables.append hroutines).append (covers_commonFiles hsource)

theorem covers_assignments (hnames : PlainNames schema) (hsource : FromSource schema) {files : List GeneratedFile}
    (h : (assignments schema clientPath output).outcome = .ok files) :
    Covers (Written output) (modules schema clientPath output) files := by
  rw [← map_toModule_scopes]
  exact (covers_scopes hnames hsource h).map fun _ _ => Spelled.written

end HookGen.Generation
