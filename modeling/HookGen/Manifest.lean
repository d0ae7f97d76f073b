import HookGen.Config.File

/-!
The manifest of a generation lists the generated files, so that the next one can remove those that it
does not generate any more.
-/

namespace HookGen.Manifest

open Run

def fileName : Text := ".manifest.json"

def version : Text := "0.3.0"

-- Write a file of a generation. A failure of the disk is logged.
def writeFile (path : Path) (text : Text) : Run Unit :=
  orElse (writePieces path [text]) fun e => do
    match e with
    | .disk (.refused _ _) => Run.logError ("Failed to write " ++ path.text ++ ": " ++ e.message)
    | _ => done ()
    fail e

def path (config : Config) (root : Path) : Run Path := do
  return (← config.outputPath root).child fileName

-- How a manifest names a file: by its path from the output directory.
def entryOf (output : Path) (file : Text) : Run Text := do
  let path ← resolve (Path.ofText file)
  let output ← resolve output
  if output.isWithin path then
    return (Path.mk .relative (path.names.drop output.names.length)).text
  else fail (.outsideOutput path.text output.text)

def entriesOf (output : Path) : List Text → Run (List Text)
  | [] => return []
  | file :: rest => do
    let entry ← entryOf output file
    return entry :: (← entriesOf output rest)

-- The manifest of a generation at the time `now`.
def create (now : Text) (schema : Schema) (clientPath : Text) (files : List Text) (output : Path) :
    Run Json := do
  let entries ← entriesOf output files
  return .obj [
    ("version", .str version),
    ("lastGenerated", .str now),
    ("sourceFile", (schema.sourceFile.map Json.str).getD .null),
    ("schema", .str schema.name),
    ("supabasePath", .str clientPath),
    ("generatedFiles", .arr ((Text.sort entries).map .str))]

def style : Json.Style := ⟨some 2, true⟩

-- The manifest of the previous generation. An unreadable one is logged and does not count.
def load (config : Config) (root : Path) : Run (Option Json) := do
  let path ← path config root
  let ignore (cause : Text) : Run (Option Json) := do
    Run.logWarning ("Ignoring unreadable manifest " ++ path.text ++ ": " ++ cause)
    return none
  if !(← pathExists path) then return none
  let text? ← orElse (some <$> readText path) fun e => do
    match e with
    | .disk (.refused _ _) => do
      let _ ← ignore e.message
      return none
    | e => fail e
  match text? with
  | none => return none
  | some text =>
    match Json.read text with
    | .error (.tooManyDigits count) => fail (.numberTooLong (.tooManyDigits count))
    | .error e => ignore e.message
    | .ok (.obj fields) => return some (.obj fields)
    | .ok _ => do
      Run.logWarning ("Ignoring malformed manifest " ++ path.text)
      return none

-- The texts among the entries of a manifest. A text in place of the list counts as its characters, an
-- object as its names.
def entries (manifest : Json) : Except RunError (List Text) :=
  match manifest.field? "generatedFiles" with
  | none => .ok []
  | some (.arr elements) => .ok (elements.filterMap Json.text?)
  | some (.str t) => .ok (t.map fun c => [c])
  | some (.obj fields) => .ok (fields.map (·.1))
  | some value => .error (.notAList (Settings.kindName value))

-- Whether one path is properly below another.
def isBelow (outer inner : Path) : Bool := outer.isWithin inner && inner != outer

-- Remove a directory below the output directory, given by its names in reverse order, and those above
-- it as long as they are empty.
def removeEmptyUp (output : Path) : List Text → Run Unit
  | [] => done ()
  | name :: above => do
    let directory := Path.ofPlace (name :: above).reverse
    if !isBelow output directory then done ()
    else do
      let isEmpty ← query fun disk =>
        .ok (disk.isDirectoryAt directory.names && (disk.entriesIn directory.names).isEmpty)
      if isEmpty then do
        change fun disk => .ok (disk.erase directory.names, ())
        removeEmptyUp output above
      else done ()

-- Remove the file that an entry of a manifest names, if it is a stale one. The answer is the file.
def removeEntry (output : Path) (current : List Path) (entry : Text) : Run (Option Path) := do
  let path ← resolve (output.child entry)
  if !isBelow output path then
    Run.logWarning ("Ignoring manifest entry outside the output directory: " ++ entry)
    return none
  else if current.contains path || path.name == fileName then return none
  else if !(← isFile path) then return none
  else do
    change fun disk => .ok (disk.erase path.names, ())
    Run.logDebug ("Removed stale file: " ++ path.text)
    removeEmptyUp output path.parent.names.reverse
    return some path

def removeEntries (output : Path) (current : List Path) : List Text → Run (List Path)
  | [] => return []
  | entry :: rest => do
    let removed ← removeEntry output current entry
    return removed.toList ++ (← removeEntries output current rest)

def resolveAll : List Text → Run (List Path)
  | [] => return []
  | file :: rest => do
    let path ← resolve (Path.ofText file)
    return path :: (← resolveAll rest)

-- Remove the files of a previous generation that are not among the current ones. Only files below the
-- output directory are touched.
def cleanUp (previous : Json) (files : List Text) (output : Path) : Run (List Path) := do
  let output ← resolve output
  let current ← resolveAll files
  let entries ← ofExcept id (entries previous)
  removeEntries output current (Text.sortDistinct entries)

end HookGen.Manifest
