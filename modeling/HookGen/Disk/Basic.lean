import HookGen.Path
import HookGen.Text.Utf8

/-!
Disks: directories, files and symbolic links, each at a place. The operations of this module look at
one place or change one place.
-/

namespace HookGen

-- A place on a disk: the names on the way to it from the root.
abbrev Place := List Text

-- The path of a place.
def Path.ofPlace (place : Place) : Path := ⟨.root, place⟩

inductive Disk.Entry
  | file (content : Bytes)
  | link (target : Text)
  | directory
  deriving DecidableEq, Repr

structure Disk where
  entries : List (Place × Disk.Entry)
  -- where relative paths begin
  current : Place

namespace Disk

-- A disk with nothing but its root.
def empty : Disk := ⟨[], []⟩

-- What is at a place. The root is always a directory.
def entry? (disk : Disk) : Place → Option Entry
  | [] => some .directory
  | name :: rest => disk.entries.lookup (name :: rest)

def isDirectoryAt (disk : Disk) (place : Place) : Bool := disk.entry? place == some .directory

def put (disk : Disk) (place : Place) (entry : Entry) : Disk :=
  { disk with entries := (place, entry) :: disk.entries.filter (·.1 != place) }

def erase (disk : Disk) (place : Place) : Disk :=
  { disk with entries := disk.entries.filter (·.1 != place) }

-- The entries right in a directory.
def entriesIn (disk : Disk) (directory : Place) : List (Place × Entry) :=
  disk.entries.filter fun entry => !entry.1.isEmpty && entry.1.dropLast == directory

-- How many symbolic links there are.
def linkCount (disk : Disk) : Nat :=
  disk.entries.countP fun entry =>
    match entry.2 with
    | .link _ => true
    | _ => false

-- Where a path begins.
def origin (disk : Disk) (path : Path) : Place :=
  if path.anchor = .relative then disk.current else []

-- Why something cannot be done with a path.
inductive Fault
  | missing
  | alreadyThere
  | notADirectory
  | isADirectory
  | nameTooLong
  | tooManyLinks
  deriving DecidableEq, Repr

def Fault.number : Fault → Nat
  | .missing => 2
  | .alreadyThere => 17
  | .notADirectory => 20
  | .isADirectory => 21
  | .nameTooLong => 36
  | .tooManyLinks => 40

def Fault.message : Fault → Text
  | .missing => "No such file or directory"
  | .alreadyThere => "File exists"
  | .notADirectory => "Not a directory"
  | .isADirectory => "Is a directory"
  | .nameTooLong => "File name too long"
  | .tooManyLinks => "Too many levels of symbolic links"

end Disk

inductive DiskError
  | refused (fault : Disk.Fault) (path : Text)
  -- a path that has no form in bytes
  | unencodable (error : Utf8.EncodeError)
  | nullInPath
  -- a symbolic link that leads back to itself
  | linkLoop (path : Text)
  deriving DecidableEq, Repr

def DiskError.message : DiskError → Text
  | .refused fault path =>
    "[Errno " ++ Text.ofNat fault.number ++ "] " ++ fault.message ++ ": " ++ path.quoted
  | .unencodable error => error.message
  | .nullInPath => "embedded null byte"
  | .linkLoop path => "Symlink loop from " ++ path.quoted

namespace Disk

-- A byte that was no part of a character when a name was read is kept as one of these surrogates.
def isEscapedByte (offset : Fin 2048) : Bool := 0x480 ≤ offset.val && offset.val < 0x500

-- How many bytes a name has.
def nameSize : Text → Nat
  | [] => 0
  | .char c :: rest => (Utf8.encodeNat c.toNat).length + nameSize rest
  | .surrogate _ :: rest => 1 + nameSize rest

def isTooLong (name : Text) : Bool := nameSize name > 255

-- Why a text that continues at `position` is no path in bytes. Surrogates count before zeros.
def unencodable? (position : Nat) : Text → Option Utf8.EncodeError
  | [] => none
  | .char _ :: rest => unencodable? (position + 1) rest
  | .surrogate offset :: rest =>
    if isEscapedByte offset then unencodable? (position + 1) rest
    else some ⟨0xD800 + offset.val, position, (rest.takeWhile Utf8.isSurrogate).length + 1⟩

def checkText (t : Text) : Except DiskError Unit :=
  match unencodable? 0 t with
  | some error => .error (.unencodable error)
  | none => if t.any (·.toNat == 0) then .error .nullInPath else .ok ()

end Disk

end HookGen
