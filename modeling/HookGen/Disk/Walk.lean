import HookGen.Disk.Basic

/-!
Finding the place that a path leads to, through symbolic links. There are two ways: looking it up, which
needs every directory on the way, and resolving it, which takes names that are not there as they are.
-/

namespace HookGen.Disk

-- Look up names from a directory on. `enter` goes on at the target of a link, given the directory of the
-- link and the names behind it. The last name may be free; a single point stands for a directory itself.
def walkOver (disk : Disk) (followLast : Bool)
    (enter : Place → Text → List Text → Except Fault Place) : Place → List Text → Except Fault Place
  | place, [] => .ok place
  | place, name :: rest =>
    if !disk.isDirectoryAt place then .error .notADirectory
    else if name = "." then walkOver disk followLast enter place rest
    else if name = ".." then walkOver disk followLast enter place.dropLast rest
    else if isTooLong name then .error .nameTooLong
    else
      match disk.entry? (place ++ [name]) with
      | none => if rest.isEmpty then .ok (place ++ [name]) else .error .missing
      | some (.link target) =>
        if rest.isEmpty && !followLast then .ok (place ++ [name])
        else enter place target rest
      | some _ => walkOver disk followLast enter (place ++ [name]) rest

-- The place where a relative path begins that is the target of a link in a directory.
def linkOrigin (directory : Place) (target : Path) : Place :=
  if target.anchor = .relative then directory else []

-- The names of the target of a link. A slash or a single point at its end means that it has to be a
-- directory, which a single point behind the names says.
def targetNames (target : Text) : List Text :=
  let names := (Path.ofText target).names
  let last := (target.reverse.takeWhile (· != .char '/')).reverse
  if last.isEmpty || last = "." then names ++ [Text.ofString "."] else names

-- Look up names with a bound on the number of links on the way.
def walkWithin (disk : Disk) (followLast : Bool) : Nat → Place → List Text → Except Fault Place
  | 0 => walkOver disk followLast fun _ _ _ => .error .tooManyLinks
  | links + 1 => walkOver disk followLast fun directory target rest =>
    walkWithin disk followLast links (linkOrigin directory (Path.ofText target))
      (targetNames target ++ rest)

-- How many links a path may lead through.
def maxLinks : Nat := 40

-- The place that a path leads to: something that is there, or a free place in a directory.
def locate (disk : Disk) (followLast : Bool) (path : Path) : Except Fault Place :=
  walkWithin disk followLast maxLinks (disk.origin path) path.names

-- What a path leads to.
def find (disk : Disk) (path : Path) : Except Fault (Place × Entry) := do
  let place ← disk.locate true path
  match disk.entry? place with
  | some entry => return (place, entry)
  | none => .error .missing

-- Resolve names from a place on. `enter` resolves the target of a link. The answer is the names up to
-- a link that could not be resolved and those behind it, if there is one.
def resolveOver (disk : Disk) (enter : Place → Place → Path → Except (List Text) Place) :
    Place → List Text → Except (List Text) Place
  | place, [] => .ok place
  | place, name :: rest =>
    if name = ".." then resolveOver disk enter place.dropLast rest
    else
      match disk.entry? (place ++ [name]) with
      | some (.link target) =>
        match enter (place ++ [name]) place (Path.ofText target) with
        | .ok next => resolveOver disk enter next rest
        | .error names => .error (names ++ rest)
      | _ => resolveOver disk enter (place ++ [name]) rest

-- Resolve names while the links of `pending` are being resolved. One of them on the way is a loop.
def resolveWithin (disk : Disk) : Nat → List Place → Place → List Text → Except (List Text) Place
  | 0, _ => resolveOver disk fun link _ _ => .error link
  | budget + 1, pending => resolveOver disk fun link directory target =>
    if pending.contains link then .error link
    else resolveWithin disk budget (link :: pending) (linkOrigin directory target) target.names

-- Check the names on the way to a place that is being resolved, one after the other.
def checkNames (place : Place) : List Text → Except DiskError Unit
  | [] => .ok ()
  | name :: rest =>
    if name = ".." then checkNames place.dropLast rest
    else do
      checkText (Path.ofPlace (place ++ [name])).text
      checkNames (place ++ [name]) rest

-- The place of a path without links and double points. Nothing needs to be there.
def resolve (disk : Disk) (path : Path) : Except DiskError Place := do
  checkNames (disk.origin path) path.names
  let place := match resolveWithin disk disk.linkCount [] (disk.origin path) path.names with
    | .ok place => place
    | .error names => (Path.ofPlace names).normalNames
  match disk.find (Path.ofPlace place) with
  | .error .tooManyLinks => .error (.linkLoop (Path.ofPlace place).text)
  | _ => return place

end HookGen.Disk
