import HookGen.Manifest

/-!
Generating from the declaration file of a project: the schema is found, its modules are generated and
written, and the manifest is brought up to date.
-/

namespace HookGen

-- What a caller asks for. The overrides replace configured options.
structure Request where
  overrides : Overrides
  projectRoot : Option Text
  configPath : Option Text
  verbose : Bool
  deriving DecidableEq, Repr

-- The request that leaves everything as it is configured.
def Request.default : Request := ⟨Overrides.none, none, none, false⟩

namespace Integration

open Run

-- The root of a project: a path that is given, or else the current directory.
def projectRoot (given : Option Text) : Run Path := resolve (Path.ofText (given.getD "."))

-- The configuration with the options of the request in their places.
def config (request : Request) (root : Path) : Run Config := do
  return (← Config.load root request.configPath).override request.overrides

-- Read a declaration file.
def readDeclarations (path : Path) : Run DeclarationFile := do
  if ← isFile path then do
    let bytes ← read path
    ofLogged nofun (DeclarationFile.parse path.text (Utf8.decodeLossy bytes))
  else fail (.inputMissing path.text)

-- Find the schema that a configuration asks for.
def schema (config : Config) (root : Path) : Run Schema := do
  let file ← readDeclarations (← config.inputPath root)
  ofLogged .introspection (Introspection.introspect file config.schema "Database")

-- The files that are generated for a schema.
def files (schema : Schema) (config : Config) (root : Path) : Run (List GeneratedFile) := do
  let output ← config.outputPath root
  ofLogged .generation (Generation.generate schema config.supabasePath output)

-- What generated modules begin with.
def header : Text := "/**
 * Auto-generated by SupaHooks from Supabase database types - DO NOT EDIT
 * Changes will be overwritten on regeneration.
 */

"

-- The text that is written for a generated file.
def finalText (file : GeneratedFile) : Text :=
  if (Path.ofText file.path).ending = ".ts" then header ++ file.content else file.content

def writeGenerated (verbose : Bool) (file : GeneratedFile) : Run Unit := do
  Manifest.writeFile (Path.ofText file.path) (finalText file)
  if verbose then Run.logDebug ("Generated: " ++ file.path)

-- Whether there is anything in a manifest.
def isBlank (manifest : Json) : Bool := manifest.fields.isEmpty

-- Remove what only the previous generation made, and take down what this one made.
def updateManifest (now : Text) (schema : Schema) (files : List GeneratedFile) (config : Config)
    (root : Path) : Run Unit := do
  let output ← config.outputPath root
  let paths := files.map (·.path)
  match ← Manifest.load config root with
  | some previous =>
    if !isBlank previous then do
      let removed ← Manifest.cleanUp previous paths output
      if !removed.isEmpty then
        Run.logInfo ("Removed " ++ Text.ofNat removed.length ++ " stale generated files")
  | none => done ()
  let manifest ← Manifest.create now schema config.supabasePath paths output
  let path ← Manifest.path config root
  Manifest.writeFile path (Json.print Manifest.style manifest ++ "\n")

-- Tell the configuration of a run.
def logConfig (config : Config) (root : Path) : Run Unit := do
  Run.logInfo "Starting SupaHooks generation"
  Run.logDebug ("Project root: " ++ root.text)
  Run.logDebug ("Input file: " ++ config.input)
  Run.logDebug ("Output location: " ++ config.output)
  Run.logDebug ("Supabase import path: " ++ config.supabasePath)
  Run.logDebug ("Schema: " ++ config.schema)

-- What a run finds and generates.
structure Result where
  schema : Schema
  files : List GeneratedFile

-- Generate and write the modules of a project at the time `now`.
def integrate (now : Text) (request : Request) : Run Result := do
  let root ← projectRoot request.projectRoot
  let config ← config request root
  if request.verbose then logConfig config root
  let schema ← schema config root
  let files ← files schema config root
  forEach (writeGenerated request.verbose) files
  if config.manifest then updateManifest now schema files config root
  return ⟨schema, files⟩

-- What is printed after a run.
def Result.report (result : Result) : Text :=
  "SupaHooks: Generated " ++ Text.ofNat result.files.length ++ " files (" ++
    Text.ofNat result.schema.tables.length ++ " tables, " ++
    Text.ofNat result.schema.publicRoutines.length ++ " functions, " ++
    Text.ofNat result.schema.enums.length ++ " enums)\n"

-- Find the schema of a project without generating anything.
def introspectOnly (request : Request) : Run Schema := do
  let root ← projectRoot request.projectRoot
  schema (← config request root) root

def introspectionReport (schema : Schema) : Text :=
  "SupaHooks: Introspected " ++ Text.ofNat schema.tables.length ++ " tables, " ++
    Text.ofNat schema.routines.length ++ " functions, " ++
    Text.ofNat schema.enums.length ++ " enums\n"

-- Generate the modules of a project without writing them.
def generateOnly (request : Request) : Run Result := do
  let root ← projectRoot request.projectRoot
  let config ← config request root
  let schema ← schema config root
  return ⟨schema, ← files schema config root⟩

def generationReport (files : List GeneratedFile) : Text :=
  "SupaHooks: Generated " ++ Text.ofNat files.length ++ " files - not written to disk\n"

end Integration

end HookGen
