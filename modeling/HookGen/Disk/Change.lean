import HookGen.Disk.Walk

/-!
What can be done with a path on a disk. Each operation of this module either changes the disk as a
whole or fails and leaves it.
-/

namespace HookGen.Disk

-- Refuse an operation on a path.
def refuse {α : Type} (path : Path) (x : Except Fault α) : Except DiskError α :=
  x.mapError fun fault => .refused fault path.text

-- A question about what a path leads to. Where it leads nowhere the answer is no.
def ask (disk : Disk) (path : Path) (question : Entry → Bool) : Except DiskError Bool :=
  match checkText path.text with
  | .error _ => .ok false
  | .ok () =>
    match disk.find path with
    | .ok (_, entry) => .ok (question entry)
    | .error .nameTooLong => .error (.refused .nameTooLong path.text)
    | .error _ => .ok false

def pathExists (disk : Disk) (path : Path) : Except DiskError Bool := disk.ask path fun _ => true

def isFile (disk : Disk) (path : Path) : Except DiskError Bool :=
  disk.ask path fun entry =>
    match entry with
    | .file _ => true
    | _ => false

def isDirectory (disk : Disk) (path : Path) : Except DiskError Bool :=
  disk.ask path (· == .directory)

-- The bytes of a file.
def read (disk : Disk) (path : Path) : Except DiskError Bytes := do
  checkText path.text
  let (_, entry) ← refuse path (disk.find path)
  match entry with
  | .file content => return content
  | _ => .error (.refused .isADirectory path.text)

-- Where a new entry of a directory goes. The last name of the path has to be free.
def freePlace (disk : Disk) (path : Path) : Except Fault Place := do
  let directory ← disk.locate true path.parent
  match disk.entry? directory with
  | none => .error .missing
  | some .directory =>
    if path.names.isEmpty || path.name = ".." then .error .alreadyThere
    else if isTooLong path.name then .error .nameTooLong
    else if (disk.entry? (directory ++ [path.name])).isSome then .error .alreadyThere
    else .ok (directory ++ [path.name])
  | some _ => .error .notADirectory

-- Make a directory in one that is there.
def makeDirectory (disk : Disk) (path : Path) : Except DiskError Disk := do
  checkText path.text
  return disk.put (← refuse path (disk.freePlace path)) .directory

-- Make a symbolic link in a directory that is there.
def makeLink (disk : Disk) (path : Path) (target : Text) : Except DiskError Disk := do
  checkText path.text
  return disk.put (← refuse path (disk.freePlace path)) (.link target)

-- Open a file for writing, which empties it or makes a new one. The answer has its place.
def openForWriting (disk : Disk) (path : Path) : Except DiskError (Disk × Place) := do
  checkText path.text
  let place ← refuse path (disk.locate true path)
  if disk.entry? place = some .directory then .error (.refused .isADirectory path.text)
  else return (disk.put place (.file []), place)

-- Write at the end of the file at a place.
def append (disk : Disk) (place : Place) (bytes : Bytes) : Disk :=
  match disk.entry? place with
  | some (.file content) => disk.put place (.file (content ++ bytes))
  | _ => disk

-- Everything below a directory: the names behind it, directories with a slash and links with an
-- at sign at their ends.
def listing (disk : Disk) (directory : Place) : List Text :=
  let below := disk.entries.filter fun entry =>
    directory.isPrefixOf entry.1 && directory.length < entry.1.length
  Text.sort (below.map fun entry =>
    let mark : Text := match entry.2 with
      | .file _ => []
      | .link _ => "@"
      | .directory => "/"
    Text.join "/" (entry.1.drop directory.length) ++ mark)

end HookGen.Disk
