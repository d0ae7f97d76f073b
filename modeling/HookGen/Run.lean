import HookGen.Config.Basic
import HookGen.Disk.Change
import HookGen.Generation
import HookGen.Json.Reader
import HookGen.Schema.Introspection

/-!
Runs: computations on a disk that log what they do and can fail. A failure keeps what was done to the
disk before it.
-/

namespace HookGen

inductive RunError
  | disk (error : DiskError)
  | unreadable (error : Utf8.DecodeError)
  | unwritable (error : Utf8.EncodeError)
  -- a JSON number with more digits than are read
  | numberTooLong (error : Json.ReadError)
  | configMissing (path : Text)
  | configExists (path : Text)
  | configMalformed (path : Text) (error : Json.ReadError)
  | configNotAnObject (path : Text)
  | configRefused (path : Text) (error : Settings.SettingsError)
  | inputMissing (path : Text)
  | introspection (error : IntrospectionError)
  | generation (error : GenerationError)
  -- a file that a manifest cannot mention
  | outsideOutput (path output : Text)
  -- a value of another kind in place of a list
  | notAList (kind : Text)

def RunError.message : RunError → Text
  | .disk error => error.message
  | .unreadable error => error.message
  | .unwritable error => error.message
  | .numberTooLong error => error.message
  | .configMissing path => "Config file not found: " ++ path
  | .configExists path => "Config file already exists: " ++ path
  | .configMalformed path error => "Invalid JSON in " ++ path ++ ": " ++ error.message
  | .configNotAnObject path => "Config in " ++ path ++ " must be a JSON object"
  | .configRefused path error => "Failed to load config from " ++ path ++ ": " ++ error.message
  | .inputMissing path => "Input file not found: " ++ path
  | .introspection error => error.message
  | .generation error => error.message
  | .outsideOutput path output =>
    path.quoted ++ " is not in the subpath of " ++ output.quoted ++
      " OR one path is relative and the other is absolute."
  | .notAList kind => "'" ++ kind ++ "' object is not iterable"

-- The disk after a run beside what was logged and how it ended.
def Run (α : Type) := Disk → Disk × Logged RunError α

namespace Run

variable {α β ε : Type}

def done (a : α) : Run α := fun disk => (disk, Traced.done a)

def fail (e : RunError) : Run α := fun disk => (disk, Traced.fail e)

def andThen (first : Run α) (next : α → Run β) : Run β := fun disk =>
  match first disk with
  | (disk, ⟨records, .error e⟩) => (disk, ⟨records, .error e⟩)
  | (disk, ⟨records, .ok a⟩) =>
    let (disk, rest) := next a disk
    (disk, ⟨records ++ rest.notes, rest.outcome⟩)

instance : Monad Run where
  pure := done
  bind := andThen

def log (record : LogRecord) : Run Unit := fun disk => (disk, Traced.note record)

def logDebug (text : Text) : Run Unit := log ⟨.debug, text⟩

def logInfo (text : Text) : Run Unit := log ⟨.info, text⟩

def logWarning (text : Text) : Run Unit := log ⟨.warning, text⟩

def logError (text : Text) : Run Unit := log ⟨.error, text⟩

def ofExcept (onError : ε → RunError) (x : Except ε α) : Run α := fun disk =>
  (disk, Traced.ofExcept (x.mapError onError))

-- A computation that does not touch the disk.
def ofLogged (onError : ε → RunError) (x : Logged ε α) : Run α := fun disk =>
  (disk, x.retell some onError)

-- Look at the disk.
def query (question : Disk → Except DiskError α) : Run α := fun disk =>
  (disk, Traced.ofExcept ((question disk).mapError .disk))

-- Change the disk unless that fails.
def change (operation : Disk → Except DiskError (Disk × α)) : Run α := fun disk =>
  match operation disk with
  | .ok (changed, a) => (changed, Traced.done a)
  | .error e => (disk, Traced.fail (.disk e))

-- The same run, with another one in place of its failure.
def orElse (first : Run α) (handle : RunError → Run α) : Run α := fun disk =>
  match first disk with
  | (disk, ⟨records, .error e⟩) =>
    let (disk, rest) := handle e disk
    (disk, ⟨records ++ rest.notes, rest.outcome⟩)
  | (disk, ⟨records, .ok a⟩) => (disk, ⟨records, .ok a⟩)

-- One run after the other.
def forEach (run : α → Run Unit) : List α → Run Unit
  | [] => done ()
  | a :: rest => (run a).andThen fun _ => forEach run rest

def resolve (path : Path) : Run Path := do
  return Path.ofPlace (← query fun disk => disk.resolve path)

def isFile (path : Path) : Run Bool := query fun disk => disk.isFile path

def pathExists (path : Path) : Run Bool := query fun disk => disk.pathExists path

def read (path : Path) : Run Bytes := query fun disk => disk.read path

-- Make a directory of which the parent is there. One that is there already is left alone.
def makeLastDirectory (path : Path) : Run Unit :=
  orElse (change fun disk => return (← disk.makeDirectory path, ())) fun e =>
    match e with
    | .disk (.refused .missing _) => fail e
    | .disk (.refused _ _) => do
      if ← query fun disk => disk.isDirectory path then done () else fail e
    | e => fail e

-- Make a directory and those above it as far as they are missing. The names are in reverse order.
def makeDirectoriesUp (anchor : Anchor) : List Text → Run Unit
  | [] => makeLastDirectory ⟨anchor, []⟩
  | name :: above =>
    let path : Path := ⟨anchor, (name :: above).reverse⟩
    orElse (makeLastDirectory path) fun e =>
      match e with
      | .disk (.refused .missing _) => do
        makeDirectoriesUp anchor above
        makeLastDirectory path
      | e => fail e

def makeDirectories (path : Path) : Run Unit :=
  makeDirectoriesUp path.anchor path.names.reverse

-- Write pieces of text one after the other at the end of a file.
def appendPieces (place : Place) : List Text → Run Unit
  | [] => done ()
  | piece :: rest => do
    let bytes ← ofExcept .unwritable (Utf8.encode piece)
    change fun disk => .ok (disk.append place bytes, ())
    appendPieces place rest

-- Write a file, and the directories above it as far as they are missing. A text that cannot be encoded
-- leaves the pieces before it in the file.
def writePieces (path : Path) (pieces : List Text) : Run Unit := do
  makeDirectories path.parent
  let place ← change fun disk => disk.openForWriting path
  appendPieces place pieces

-- Line ends of all kinds as line feeds.
def normalizeLines : Text → Text
  | .char '\r' :: .char '\n' :: rest => .char '\n' :: normalizeLines rest
  | c :: rest => (if c = '\r' then .char '\n' else c) :: normalizeLines rest
  | [] => []

-- The text of a file.
def readText (path : Path) : Run Text := do
  let bytes ← read path
  return normalizeLines (← ofExcept .unreadable (Utf8.decode bytes))

end Run

end HookGen
