import HookGen.Proofs.Code.Outline
import HookGen.Proofs.Generation.Assignments
import HookGen.Proofs.Generation.References
import HookGen.Proofs.Naming

/-!
The modules that are generated for a schema, by what they take from others and what they export.
-/

namespace HookGen.Generation

open Code Traced

variable {schema : Schema} {clientPath : Text} {output : Path}

-- A generated module: the directories on the way to it from the output directory, its name without the
-- ending, and its outline.
structure Module where
  directory : List Text
  name : Text
  outline : Outline
  deriving DecidableEq, Repr

namespace Module

-- The names on the way to the file of a module.
def place (module : Module) : List Text := module.directory ++ [module.name ++ ".ts"]

def path (module : Module) (output : Path) : Path := ⟨output.anchor, output.names ++ module.place⟩

end Module

-- An index that hands on what other modules export.
def indexOutline (sources : List Text) : Outline := ⟨sources.map .all, []⟩

-- What a module of types takes is what its notes mention.
def typesOutline (module : TypesModule) (output : Path) : Outline where
  links := (TypeImport.ofNotes (sharedImports output module.path) module.declarations.notes).map fun statement =>
    .named true statement.names statement.source
  exports := module.names

def queryLink : Link :=
  .named false (["UseMutationOptions", "UseQueryOptions", "useMutation", "useQuery"].map Text.ofString)
    "@tanstack/react-query"

def clientLink (clientPath : Text) : Link := .named false [Text.ofString "supabase"] clientPath

section Tables

open TableHooks

def hookLinks (names : Names) (clientPath : Text) : List Link :=
  let own : List Link := [queryLink, clientLink clientPath,
    .named true (Text.sortDistinct [names.row, names.insert, names.update, names.filters]) "./types"]
  if names.withRelations then
    own ++ [.named false [Text.ofString "relationSelects"] "./relations",
      .named true [Text.ofString "Relationships"] "./relations"]
  else own

-- The hooks and functions of a table. Some are there only if rows can be found by a column `id`.
def hookNames (names : Names) (byId : Bool) : List Text :=
  let whenById (name : Text) : List Text := if byId then [name] else []
  [names.options] ++ whenById ("use" ++ names.pascal) ++
    [Text.ofString "use" ++ names.pascal ++ "List", "use" ++ names.pascal ++ "Create"] ++
    whenById ("use" ++ names.pascal ++ "Update") ++ whenById ("use" ++ names.pascal ++ "Delete") ++
    whenById ("get" ++ names.pascal) ++
    [Text.ofString "get" ++ names.pascal ++ "List", "create" ++ names.pascal] ++
    whenById ("update" ++ names.pascal) ++ whenById ("delete" ++ names.pascal)

-- What is declared with them: besides the options, what builds a selection and what applies filters.
def declaredHooks (names : Names) (byId : Bool) : List Text :=
  [names.options, names.selectFunction, names.filterFunction] ++ (hookNames names byId).tail

-- The relationships of a table, of those with one name the first.
def distinctRelationships (table : Table) : List Relationship := (Relations.distinct table).value

-- Where the types of the related rows come from.
def relationLinks (table : Text) (relationships : List Relationship) : List Link :=
  let referenced := Text.sortDistinct (relationships.map (·.referencedRelation))
  let others := (referenced.filter (· != table)).map fun other =>
    Link.named true [Relations.rowType other] ("../" ++ other ++ "/types")
  if referenced.contains table then others ++ [.named true [Relations.rowType table] "./types"] else others

def relationNames (table : Table) : List Text :=
  (distinctRelationships table).map (·.relationName table.name) ++
    ["Relationships", "relationSelects"].map Text.ofString

def tableIndexSources (table : Table) : List Text :=
  let relations : List Text := if table.hasRelationships then ["./relations"] else []
  Text.ofString "./types" :: Text.ofString "./hooks" :: relations

def hasId (table : Table) : Bool := table.hasIdColumn.toOption.getD false

def tableModules (schema : Schema) (clientPath : Text) (output : Path) (table : Table) : List Module :=
  [⟨[table.name], "types", typesOutline (.ofTable schema output table) output⟩,
    ⟨[table.name], "hooks", hookLinks (.ofTable table) clientPath, hookNames (.ofTable table) (hasId table)⟩] ++
  (if table.hasRelationships then
    [⟨[table.name], "relations", relationLinks table.name (distinctRelationships table), relationNames table⟩]
  else []) ++
  [⟨[table.name], "index", indexOutline (tableIndexSources table)⟩]

end Tables

section Routines

open RoutineHooks

def routineHookLinks (names : Names) (clientPath : Text) : List Link :=
  [queryLink, clientLink clientPath, .named true (Text.sortDistinct [names.args, names.returns]) "./types"]

def routineHookNames (names : Names) : List Text :=
  [Text.ofString "use" ++ names.pascal, "use" ++ names.pascal ++ "Mutation", names.direct]

def routineModules (schema : Schema) (clientPath : Text) (output : Path) (routine : Routine) : List Module :=
  [⟨["functions", routine.name], "types", typesOutline (.ofRoutine schema output routine) output⟩,
    ⟨["functions", routine.name], "hooks", routineHookLinks (.ofRoutine routine) clientPath,
      routineHookNames (.ofRoutine routine)⟩,
    ⟨["functions", routine.name], "index", indexOutline (["./types", "./hooks"].map Text.ofString)⟩]

def functionsModules (schema : Schema) : List Module :=
  if schema.publicRoutines.isEmpty then []
  else [⟨["functions"], "index",
    indexOutline (schema.publicRoutines.map fun routine => Text.ofString "./" ++ routine.name)⟩]

end Routines

section Storage

def storageHookNames : List Text := [
  "storageKeys", "useListBuckets", "useGetBucket", "useCreateBucket", "useUpdateBucket", "useDeleteBucket",
  "useListFiles", "useGetPublicUrl", "useUploadFile", "useDownloadFile", "useDeleteFiles", "useMoveFile",
  "useCopyFile"].map Text.ofString

-- What is declared with them.
def declaredStorageHooks : List Text := Text.ofString "folderOf" :: storageHookNames

def storageHookLinks (clientPath : Text) : List Link := [
  .named false (["MutationOptions", "QueryOptions", "useMutation", "useQuery", "useQueryClient"].map Text.ofString)
    "@tanstack/react-query",
  clientLink clientPath,
  .named true (["Bucket", "FileObject", "GetURLOptions", "ListOptions", "MoveOptions", "UploadOptions"].map
    Text.ofString) "./types"]

def storageModules (clientPath : Text) : List Module := [
  ⟨["storage"], "types", [], storageTypeNames⟩,
  ⟨["storage"], "hooks", storageHookLinks clientPath, storageHookNames⟩,
  ⟨["storage"], "index", indexOutline (["./types", "./hooks"].map Text.ofString)⟩]

end Storage

def baseTypesModules (schema : Schema) (output : Path) : List Module :=
  let used := usedBaseTypes schema output
  if used.isEmpty then []
  else [⟨[], "base-types", [],
    (Types.requiredBaseTypes schema used).map fun name => Piece.copiedName name (schema.baseTypeSource name)⟩]

def enumsModules (schema : Schema) : List Module :=
  if schema.hasEnums then [⟨[], "enums", [], schema.enums.map (·.typeName)⟩] else []

def mainSources (schema : Schema) (output : Path) : List Text :=
  let baseTypes : List Text := if (usedBaseTypes schema output).isEmpty then [] else ["./base-types"]
  let enums : List Text := if schema.hasEnums then ["./enums"] else []
  let functions : List Text := if schema.publicRoutines.isEmpty then [] else ["./functions"]
  baseTypes ++ enums ++ [Text.ofString "./storage"] ++
    schema.tables.map (fun table => Text.ofString "./" ++ table.name) ++ functions

-- All modules that are generated for a schema.
def modules (schema : Schema) (clientPath : Text) (output : Path) : List Module :=
  schema.tables.flatMap (tableModules schema clientPath output) ++
    schema.publicRoutines.flatMap (routineModules schema clientPath output) ++
    functionsModules schema ++ storageModules clientPath ++ baseTypesModules schema output ++
    enumsModules schema ++ [⟨[], "index", indexOutline (mainSources schema output)⟩]

-- What a module can be.
inductive IsModule (schema : Schema) (clientPath : Text) (output : Path) : Module → Prop
  | tableTypes {table : Table} (mem : table ∈ schema.tables) : IsModule schema clientPath output
      ⟨[table.name], "types", typesOutline (.ofTable schema output table) output⟩
  | tableHooks {table : Table} (mem : table ∈ schema.tables) : IsModule schema clientPath output
      ⟨[table.name], "hooks", hookLinks (.ofTable table) clientPath, hookNames (.ofTable table) (hasId table)⟩
  | relations {table : Table} (mem : table ∈ schema.tables) (some : table.hasRelationships) :
      IsModule schema clientPath output
        ⟨[table.name], "relations", relationLinks table.name (distinctRelationships table), relationNames table⟩
  | tableIndex {table : Table} (mem : table ∈ schema.tables) : IsModule schema clientPath output
      ⟨[table.name], "index", indexOutline (tableIndexSources table)⟩
  | routineTypes {routine : Routine} (mem : routine ∈ schema.publicRoutines) :
      IsModule schema clientPath output
        ⟨["functions", routine.name], "types", typesOutline (.ofRoutine schema output routine) output⟩
  | routineHooks {routine : Routine} (mem : routine ∈ schema.publicRoutines) :
      IsModule schema clientPath output ⟨["functions", routine.name], "hooks",
        routineHookLinks (.ofRoutine routine) clientPath, routineHookNames (.ofRoutine routine)⟩
  | routineIndex {routine : Routine} (mem : routine ∈ schema.publicRoutines) :
      IsModule schema clientPath output
        ⟨["functions", routine.name], "index", indexOutline (["./types", "./hooks"].map Text.ofString)⟩
  | functionsIndex (some : schema.publicRoutines ≠ []) : IsModule schema clientPath output
      ⟨["functions"], "index",
        indexOutline (schema.publicRoutines.map fun routine => Text.ofString "./" ++ routine.name)⟩
  | storageTypes : IsModule schema clientPath output ⟨["storage"], "types", [], storageTypeNames⟩
  | storageHooks : IsModule schema clientPath output
      ⟨["storage"], "hooks", storageHookLinks clientPath, storageHookNames⟩
  | storageIndex : IsModule schema clientPath output
      ⟨["storage"], "index", indexOutline (["./types", "./hooks"].map Text.ofString)⟩
  | baseTypes (used : usedBaseTypes schema output ≠ []) : IsModule schema clientPath output
      ⟨[], "base-types", [], (Types.requiredBaseTypes schema (usedBaseTypes schema output)).map fun name =>
        Piece.copiedName name (schema.baseTypeSource name)⟩
  | enums (some : schema.hasEnums) : IsModule schema clientPath output
      ⟨[], "enums", [], schema.enums.map (·.typeName)⟩
  | main : IsModule schema clientPath output ⟨[], "index", indexOutline (mainSources schema output)⟩

theorem mem_modules {module : Module} :
    module ∈ modules schema clientPath output ↔ IsModule schema clientPath output module := by
  constructor
  · simp only [modules, List.mem_append, List.mem_flatMap, List.mem_singleton]
    rintro ((((((⟨table, htable, h⟩ | ⟨routine, hroutine, h⟩) | h) | h) | h) | h) | rfl)
    · simp only [tableModules, List.mem_append, List.mem_cons, List.not_mem_nil, or_false] at h
      rcases h with ((rfl | rfl) | h) | rfl
      · exact .tableTypes htable
      · exact .tableHooks htable
      · split at h
        · rename_i hsome
          rw [List.mem_singleton.mp h]
          exact .relations htable hsome
        · cases h
      · exact .tableIndex htable
    · simp only [routineModules, List.mem_cons, List.not_mem_nil, or_false] at h
      rcases h with rfl | rfl | rfl
      · exact .routineTypes hroutine
      · exact .routineHooks hroutine
      · exact .routineIndex hroutine
    · rw [functionsModules] at h
      split at h
      · cases h
      · rename_i hsome
        rw [List.mem_singleton.mp h]
        exact .functionsIndex (by simpa using hsome)
    · simp only [storageModules, List.mem_cons, List.not_mem_nil, or_false] at h
      rcases h with rfl | rfl | rfl
      · exact .storageTypes
      · exact .storageHooks
      · exact .storageIndex
    · rw [baseTypesModules] at h
      split at h
      · cases h
      · rename_i hused
        rw [List.mem_singleton.mp h]
        exact .baseTypes (by simpa using hused)
    · rw [enumsModules] at h
      split at h
      · rename_i hsome
        rw [List.mem_singleton.mp h]
        exact .enums hsome
      · cases h
    · exact .main
  · rintro h
    simp only [modules, List.mem_append, List.mem_flatMap, List.mem_singleton]
    cases h with
    | tableTypes mem => exact .inl (.inl (.inl (.inl (.inl (.inl ⟨_, mem, by simp [tableModules]⟩)))))
    | tableHooks mem => exact .inl (.inl (.inl (.inl (.inl (.inl ⟨_, mem, by simp [tableModules]⟩)))))
    | relations mem hsome =>
      exact .inl (.inl (.inl (.inl (.inl (.inl ⟨_, mem, by simp [tableModules, hsome]⟩)))))
    | tableIndex mem => exact .inl (.inl (.inl (.inl (.inl (.inl ⟨_, mem, by simp [tableModules]⟩)))))
    | routineTypes mem => exact .inl (.inl (.inl (.inl (.inl (.inr ⟨_, mem, by simp [routineModules]⟩)))))
    | routineHooks mem => exact .inl (.inl (.inl (.inl (.inl (.inr ⟨_, mem, by simp [routineModules]⟩)))))
    | routineIndex mem => exact .inl (.inl (.inl (.inl (.inl (.inr ⟨_, mem, by simp [routineModules]⟩)))))
    | functionsIndex hsome => exact .inl (.inl (.inl (.inl (.inr (by simp [functionsModules, hsome])))))
    | storageTypes => exact .inl (.inl (.inl (.inr (by simp [storageModules]))))
    | storageHooks => exact .inl (.inl (.inl (.inr (by simp [storageModules]))))
    | storageIndex => exact .inl (.inl (.inl (.inr (by simp [storageModules]))))
    | baseTypes used => exact .inl (.inl (.inr (by simp [baseTypesModules, used])))
    | enums hsome => exact .inl (.inr (by simp [enumsModules, hsome]))
    | main => exact .inr rfl

theorem IsModule.name_mem {module : Module} (h : IsModule schema clientPath output module) :
    module.name ∈ ["types", "hooks", "relations", "index", "base-types", "enums"].map Text.ofString := by
  cases h <;> simp

theorem IsModule.directory_ne_nil {module : Module} (h : IsModule schema clientPath output module)
    (hname : module.name = "types") : module.directory ≠ [] := by
  cases h with
  | baseTypes | enums | main =>
    dsimp only at hname
    exact absurd hname (by decide)
  | _ => simp

-- Only functions have directories in one.
theorem IsModule.eq_functions {module : Module} (h : IsModule schema clientPath output module)
    {first second : Text} (hdirectory : module.directory = [first, second]) : first = "functions" := by
  cases h with
  | routineTypes | routineHooks | routineIndex => exact (List.cons.inj hdirectory).1.symm
  | _ => exact absurd (congrArg List.length hdirectory) (by simp)

end HookGen.Generation
