import HookGen.CommandLine.Basic
import Std.Time.Format
import Std.Time.Zoned

/-!
The program. It loads what a run can look at from the file system, runs, and then makes the changes that
the run made.
-/

namespace HookGen.Program

def toText (s : String) : Text := Text.ofString s

-- A text as it is printed. What is no character is shown by a question mark.
def shown (t : Text) : String :=
  String.ofList (t.map fun c =>
    match c with
    | .char c => c
    | .surrogate _ => '?')

def fileOf (place : Place) : String := shown (Path.ofPlace place).text

-- What the file system has at a place, behind symbolic links.
def probe (place : Place) : IO (Option Disk.Entry) := do
  try
    let content ← IO.FS.readBinFile (fileOf place)
    return some (.file content.toList)
  catch e =>
    match e with
    | .inappropriateType .. => return some .directory
    | _ => return none

-- Load what is on the way to a place, from the root on.
def loadPlace (disk : Disk) (start : Place) : Place → IO Disk
  | [] => return disk
  | name :: rest => do
    let place := start ++ [name]
    if (disk.entry? place).isSome then loadPlace disk place rest
    else
      match ← probe place with
      | some entry => loadPlace (disk.put place entry) place rest
      | none => return disk

def loadAll (disk : Disk) (paths : List Path) : IO Disk :=
  paths.foldlM (fun disk path =>
    match disk.resolve path with
    | .ok place => loadPlace disk [] place
    | .error _ => return disk) disk

-- What a run finds out on a disk, if it does not fail.
def found {α : Type} (disk : Disk) (run : Run α) : Option α :=
  match (run disk).2.outcome with
  | .ok a => some a
  | .error _ => none

-- The root of the project, and the configuration files that it may have.
def configPaths (request : Request) (disk : Disk) : List Path :=
  match found disk (Integration.projectRoot request.projectRoot) with
  | none => []
  | some root =>
    root :: root.child Config.fileName :: (request.configPath.map root.child).toList

-- The input and the manifest.
def settingPaths (request : Request) (disk : Disk) : List Path :=
  let run : Run (List Path) := do
    let root ← Integration.projectRoot request.projectRoot
    let config ← Integration.config request root
    let input ← config.inputPath root
    return [input, ← Manifest.path config root]
  (found disk run).getD []

-- The files of the previous manifest, and those that are generated now.
def generatedPaths (request : Request) (disk : Disk) : List Path :=
  let run : Run (List Path) := do
    let root ← Integration.projectRoot request.projectRoot
    let config ← Integration.config request root
    let output ← config.outputPath root
    let previous ← Manifest.load config root
    let entries := match Manifest.entries (previous.getD .null) with
      | .ok entries => entries
      | .error _ => []
    let result ← Integration.generateOnly request
    return entries.map output.child ++ result.files.map fun file => Path.ofText file.path
  (found disk run).getD []

-- Load all that a run looks at.
def load (request : Request) (disk : Disk) : IO Disk := do
  let disk ← loadAll disk (configPaths request disk)
  let disk ← loadAll disk (settingPaths request disk)
  loadAll disk (generatedPaths request disk)

-- Make a file or a directory of the changed disk.
def save (place : Place) : Disk.Entry → IO Unit
  | .file content => IO.FS.writeBinFile (fileOf place) ⟨content.toArray⟩
  | .directory => IO.FS.createDirAll (fileOf place)
  | .link _ => return ()

-- Remove what the changed disk does not have any more. A directory that was not loaded as a whole may
-- turn out not to be empty, and then stays.
def remove (place : Place) (entry : Disk.Entry) : IO Unit := do
  try
    match entry with
    | .directory => IO.FS.removeDir (fileOf place)
    | _ => IO.FS.removeFile (fileOf place)
  catch _ => return ()

-- Make the changes from one disk to the other: removals from the innermost place on, then the rest.
def apply (before after : Disk) : IO Unit := do
  let removed := before.entries.filter fun e => (after.entry? e.1).isNone
  for (place, entry) in removed.mergeSort fun a b => b.1.length ≤ a.1.length do
    remove place entry
  let changed := after.entries.filter fun e => before.entry? e.1 != some e.2
  for (place, entry) in changed.mergeSort fun a b => a.1.length ≤ b.1.length do
    save place entry

-- The lines of the log that are shown: all of them with their levels, or warnings and errors.
def shownRecord (verbose : Bool) (record : LogRecord) : Option Text :=
  match record.level with
  | .debug => if verbose then some ("DEBUG: " ++ record.text) else none
  | .info => if verbose then some ("INFO: " ++ record.text) else none
  | .warning => some (if verbose then "WARNING: " ++ record.text else record.text)
  | .error => some (if verbose then "ERROR: " ++ record.text else record.text)

def printOutcome (outcome : CommandLine.Outcome) : IO UInt32 := do
  IO.print (shown outcome.output)
  IO.eprint (shown outcome.errors)
  return outcome.code.toUInt32

def run (arguments : CommandLine.Arguments) : IO UInt32 := do
  let current := Path.ofText (toText (toString (← IO.currentDir)))
  let before ← load arguments.request (← loadPlace ⟨[], current.names⟩ [] current.names)
  let time ← Std.Time.PlainDateTime.now
  let now := toText (time.format "uuuu-MM-dd'T'HH:mm:ss.SSSSSS")
  let (after, outcome) := CommandLine.perform now arguments before
  apply before after
  let verbose := arguments.verbose && !arguments.init
  for line in outcome.notes.filterMap (shownRecord verbose) do
    IO.eprintln (shown line)
  match outcome.outcome with
  | .ok outcome => printOutcome outcome
  | .error e => do
    IO.eprintln (shown e.message)
    return 1

end HookGen.Program

def main (arguments : List String) : IO UInt32 :=
  match HookGen.CommandLine.parse (arguments.map HookGen.Program.toText) with
  | .ok arguments => HookGen.Program.run arguments
  | .error stop => HookGen.Program.printOutcome stop.outcome
