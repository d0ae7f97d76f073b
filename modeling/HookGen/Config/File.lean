import HookGen.Json.Printer
import HookGen.Run

/-!
Configuration files: finding, reading and writing them.
-/

namespace HookGen.Config

open Run

-- Read the configuration from a file that is there.
def read (path : Path) : Run Config := do
  let text ← readText path
  match Json.read text with
  | .error (.tooManyDigits count) => fail (.numberTooLong (.tooManyDigits count))
  | .error e => fail (.configMalformed path.text e)
  | .ok (.obj fields) =>
    let config ← ofExcept (.configRefused path.text) (Settings.ofJson (.obj fields)).check
    Run.logInfo ("Loaded SupaHooks config from " ++ path.text)
    return config
  | .ok _ => fail (.configNotAnObject path.text)

-- The configuration of a project: from the given file, which then has to be there, or else from the
-- usual one, or else the default.
def load (root : Path) (file : Option Text) : Run Config := do
  match file with
  | none =>
    let path := root.child fileName
    if ← pathExists path then read path
    else do
      Run.logDebug ("No " ++ fileName ++ " in " ++ root.text ++ ", using defaults")
      return default
  | some file =>
    let path := root.child file
    if ← pathExists path then read path else fail (.configMissing path.text)

def style : Json.Style := ⟨some 2, false⟩

-- Write settings to a file.
def save (settings : Settings) (path : Path) : Run Unit :=
  writePieces path (Json.pieces style settings.toJson ++ [Text.ofString "\n"])

-- Write the default configuration of a project.
def writeDefault (root : Path) (overwrite : Bool) : Run Path := do
  let path := root.child fileName
  if (← pathExists path) && !overwrite then fail (.configExists path.text)
  else do
    save Settings.default path
    Run.logInfo ("Created default SupaHooks config at " ++ path.text)
    return path

-- Where the declarations are.
def inputPath (config : Config) (root : Path) : Run Path := resolve (root.child config.input)

-- Where the generated files go.
def outputPath (config : Config) (root : Path) : Run Path := resolve (root.child config.output)

end HookGen.Config
