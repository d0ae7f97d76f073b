import HookGen.Text.Quoted

/-!
Paths of files: an anchor and the names behind it. Reading a path drops empty names and single points,
and keeps double points, which mean the parent of what stands before them.
-/

namespace HookGen

-- Where a path begins. Exactly two slashes are an anchor of their own.
inductive Anchor
  | relative
  | root
  | doubleRoot
  deriving DecidableEq, Repr

structure Path where
  anchor : Anchor
  names : List Text
  deriving DecidableEq, Repr

namespace Path

def Anchor.ofText (t : Text) : Anchor :=
  match (t.takeWhile (· == .char '/')).length with
  | 0 => .relative
  | 2 => .doubleRoot
  | _ => .root

def ofText (t : Text) : Path :=
  ⟨Anchor.ofText t, (t.splitOn '/').filter fun name => !name.isEmpty && name != ("." : Text)⟩

def Anchor.text : Anchor → Text
  | .relative => []
  | .root => "/"
  | .doubleRoot => "//"

def text (path : Path) : Text :=
  if path.anchor = .relative ∧ path.names.isEmpty then "."
  else Anchor.text path.anchor ++ Text.join "/" path.names

-- The second path, seen from the first.
def join (first second : Path) : Path :=
  if second.anchor = .relative then ⟨first.anchor, first.names ++ second.names⟩ else second

-- A path with one more text behind it, which may be any path.
def child (path : Path) (t : Text) : Path := path.join (ofText t)

def parent (path : Path) : Path := ⟨path.anchor, path.names.dropLast⟩

-- The last name, which is empty where there is none.
def name (path : Path) : Text := path.names.getLast?.getD []

-- The ending of a name: its last point and what follows, neither at its start nor without anything
-- behind it.
def endingOf (name : Text) : Text :=
  let after := (name.reverse.takeWhile (· != .char '.')).reverse
  if after.isEmpty || after.length + 1 ≥ name.length then [] else "." ++ after

def ending (path : Path) : Text := endingOf path.name

-- What the path is called in messages.
def shown (path : Path) : Text := "PosixPath(" ++ path.text.quoted ++ ")"

-- The path without the ending of its last name. None where it has no name.
def withoutEnding? (path : Path) : Option Path :=
  if path.names.isEmpty then none
  else some ⟨path.anchor, path.names.dropLast ++
    [path.name.take (path.name.length - path.ending.length)]⟩

-- Apply one name to the names of an absolute path read so far, the last one first. A single point can
-- be what an ending leaves of a name.
def step (done : List Text) (name : Text) : List Text :=
  if name = ".." then done.drop 1
  else if name = "." then done
  else name :: done

-- The names of the path seen from the root of the tree, with double points taken out.
def normalNames (path : Path) : List Text := (path.names.foldl step []).reverse

-- Whether the names of a path begin with those of another, which is a parent of it or the same.
def isWithin (outer inner : Path) : Bool :=
  outer.anchor == inner.anchor && outer.names.isPrefixOf inner.names

-- How many names two lists share at their start.
def sharedLength : List Text → List Text → Nat
  | a :: s, b :: t => if a = b then sharedLength s t + 1 else 0
  | _, _ => 0

-- The way from a directory to a target, both given by their normal names: up to what they share and
-- down again.
def wayNames (directory target : List Text) : List Text :=
  let shared := sharedLength directory target
  List.replicate (directory.length - shared) (Text.ofString "..") ++ target.drop shared

-- Why there is no import specifier: the target has no name.
inductive SpecifierError
  | noName (target : Path)
  deriving DecidableEq, Repr

def SpecifierError.message : SpecifierError → Text
  | .noName target => target.shown ++ " has an empty name"

-- How a module imports a target that is given without its ending: the way to it from the directory
-- of the module, with a point at its start.
def specifier (source bare : Path) : Text :=
  let names := wayNames source.parent.normalNames bare.normalNames
  let way : Text := if names.isEmpty then "." else Text.join "/" names
  let slashed : Text := way.map fun c => if c = .char '\\' then .char '/' else c
  if slashed.head? == some (.char '.') then slashed else "./" ++ slashed

-- How one module imports another.
def importSpecifier (source target : Path) : Except SpecifierError Text :=
  match target.withoutEnding? with
  | none => .error (.noName target)
  | some bare => .ok (specifier source bare)

end Path

end HookGen
