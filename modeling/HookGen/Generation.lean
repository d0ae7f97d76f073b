import HookGen.Emit.MainIndex
import HookGen.Emit.Relations
import HookGen.Emit.RoutineHooks
import HookGen.Emit.Storage
import HookGen.Emit.TableHooks
import HookGen.Path

/-!
All modules that are generated for a schema, with their paths.
-/

namespace HookGen

-- A generated file: the text of its path and what it holds.
structure GeneratedFile where
  path : Text
  content : Text
  deriving DecidableEq, Repr

inductive GenerationError
  | literal (error : StringLiteral.DecodeError)
  | render (error : Render.RenderError)
  deriving DecidableEq, Repr

def GenerationError.message : GenerationError → Text
  | .literal error => error.message
  | .render error => error.message

abbrev Generated (α : Type) := Logged GenerationError α

namespace Generation

-- Add a file: a path that is written again keeps its place.
def put (file : GeneratedFile) : List GeneratedFile → List GeneratedFile
  | [] => [file]
  | other :: rest => if other.path = file.path then file :: rest else other :: put file rest

def baseTypesPath (output : Path) : Path := output.child "base-types.ts"

def enumsPath (output : Path) : Path := output.child "enums.ts"

def functionsPath (output : Path) : Path := output.child "functions"

-- Where a module of types imports the shared types from.
def sharedImports (output typesPath : Path) : SharedImports :=
  ⟨typesPath.specifier (output.child "base-types"), typesPath.specifier (output.child "enums")⟩

-- Rendering as part of a generation: its notes are kept beside the text, and what could not be
-- resolved goes to the log.
def rendered {α : Type} (x : Render.Rendering α) : Generated (α × List Render.Note) :=
  (Render.withNotes x).retell Render.Note.logRecord? .render

def logged {α : Type} (x : Logged Empty α) : Generated α := x.retell some nofun

def file (path : Path) (content : Text) : GeneratedFile := ⟨path.text, content⟩

-- The files of a table, and the notes of rendering its types.
def tableFiles (schema : Schema) (clientPath : Text) (output : Path) (table : Table) :
    Generated (List GeneratedFile × List Render.Note) := do
  let directory := output.child table.name
  let typesPath := directory.child "types.ts"
  let shared := sharedImports output typesPath
  let (types, notes) ← rendered (Types.tableModule schema shared table)
  let hooks ← Traced.ofExcept ((TableHooks.module table clientPath).mapError .literal)
  let relations ← if table.hasRelationships then do
      let relations ← logged (Relations.module table)
      pure [
        file (directory.child "relations.ts") relations,
        file (directory.child "relationships.json") (Relations.jsonModule table)]
    else pure []
  return ([file typesPath types, file (directory.child "hooks.ts") hooks] ++ relations ++
    [file (directory.child "index.ts") (TableHooks.indexModule table)], notes)

-- The files of a function, and the notes of rendering its types.
def routineFiles (schema : Schema) (clientPath : Text) (output : Path) (routine : Routine) :
    Generated (List GeneratedFile × List Render.Note) := do
  let directory := (functionsPath output).child routine.name
  let typesPath := directory.child "types.ts"
  let shared := sharedImports output typesPath
  let (types, notes) ← rendered (Types.routineModule schema shared routine)
  return ([
    file typesPath types,
    file (directory.child "hooks.ts") (RoutineHooks.module routine clientPath),
    file (directory.child "index.ts") (RoutineHooks.indexModule routine)], notes)

-- The files of one thing after the other.
def collect {α : Type} (filesOf : α → Generated (List GeneratedFile × List Render.Note)) :
    List α → Generated (List GeneratedFile × List Render.Note)
  | [] => return ([], [])
  | a :: rest => do
    let (files, notes) ← filesOf a
    let (otherFiles, otherNotes) ← collect filesOf rest
    return (files ++ otherFiles, notes ++ otherNotes)

def storageFiles (clientPath : Text) (output : Path) : List GeneratedFile :=
  (Storage.modules clientPath).map fun module =>
    file ((output.child "storage").child module.1) module.2

-- Every file in the order of its generation, before files with one path are merged.
def assignments (schema : Schema) (clientPath : Text) (output : Path) :
    Generated (List GeneratedFile) := do
  let (tables, tableNotes) ← collect (tableFiles schema clientPath output) schema.tables
  let routines := schema.publicRoutines
  let (functions, functionNotes) ← collect (routineFiles schema clientPath output) routines
  let functionsIndex ← if routines.isEmpty then pure [] else do
    let index ← logged (RoutineHooks.functionsIndex schema.routines)
    pure [file ((functionsPath output).child "index.ts") index]
  let used := (tableNotes ++ functionNotes).filterMap Render.Note.baseType?
  let baseTypes :=
    if used.isEmpty then []
    else [file (baseTypesPath output) (Types.baseTypesModule schema used)]
  let enums :=
    if schema.hasEnums then [file (enumsPath output) (Types.enumsModule schema.enums schema.name)]
    else []
  let index := file (output.child "index.ts")
    (MainIndex.module schema (!used.isEmpty) (!routines.isEmpty))
  return tables ++ functions ++ functionsIndex ++ storageFiles clientPath output ++ baseTypes ++
    enums ++ [index]

-- The files of a schema, each path once.
def generate (schema : Schema) (clientPath : Text) (output : Path) :
    Generated (List GeneratedFile) := do
  let files := (← assignments schema clientPath output).foldl (fun files file => put file files) []
  logDebug ("Generated " ++ Text.ofNat files.length ++ " files for schema '" ++ schema.name ++ "'")
  return files

end Generation

end HookGen
