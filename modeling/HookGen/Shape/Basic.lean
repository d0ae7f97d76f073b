import HookGen.Number.Literal
import HookGen.Text.StringLiteral

/-!
Shapes: type expressions as trees. Objects, unions, arrays, tuples, indexed accesses and generic
applications keep their parts; every other type is a leaf with its text.
-/

namespace HookGen

-- What any shape may be labelled with: a text, and a name that it refers to.
structure Label where
  text : Option Text
  reference : Option Text
  deriving DecidableEq, Repr

def Label.none : Label := ⟨.none, .none⟩

def Label.ofText (text : Text) : Label := ⟨some text, .none⟩

-- The label of something that is called by the name it refers to.
def Label.ofName (name : Text) : Label := ⟨some name, some name⟩

mutual

inductive Shape
  | leaf (label : Label)
  -- properties, and the source of what else the object type declares
  | object (label : Label) (members : List Member) (signatures : List Text)
  | union (label : Label) (args : List Shape)
  | array (label : Label) (args : List Shape)
  | tuple (label : Label) (args : List Shape)
  -- an indexed access by string keys, which begins with the name of a type
  | lookup (label : Label) (path : List Text)
  | generic (label : Label) (args : List Shape)

-- A property. Its name is source text, quotes included.
inductive Member
  | mk (name : Text) (shape : Shape) (optional : Bool) (readonly : Bool)

end

namespace Member

def name : Member → Text
  | .mk name _ _ _ => name

def shape : Member → Shape
  | .mk _ shape _ _ => shape

def optional : Member → Bool
  | .mk _ _ optional _ => optional

def readonly : Member → Bool
  | .mk _ _ _ readonly => readonly

-- The name that a property is found by: the value of a quoted name.
def key (member : Member) : Except StringLiteral.DecodeError Text :=
  if StringLiteral.isQuoted member.name then StringLiteral.decode member.name else .ok member.name

-- The first property with a key. A name that cannot be decoded stops the search.
def find? (key : Text) : List Member → Except StringLiteral.DecodeError (Option Member)
  | [] => .ok none
  | member :: rest => do
    if (← member.key) = key then return some member else find? key rest

end Member

namespace Shape

def text (text : Text) : Shape := .leaf (.ofText text)

def name (name : Text) : Shape := .leaf (.ofName name)

def emptyObject : Shape := .object .none [] []

def unionOf (args : List Shape) : Shape := .union .none args

def label : Shape → Label
  | .leaf label => label
  | .object label _ _ => label
  | .union label _ => label
  | .array label _ => label
  | .tuple label _ => label
  | .lookup label _ => label
  | .generic label _ => label

def args : Shape → List Shape
  | .union _ args => args
  | .array _ args => args
  | .tuple _ args => args
  | .generic _ args => args
  | _ => []

def members : Shape → List Member
  | .object _ members _ => members
  | _ => []

def isObject : Shape → Bool
  | .object _ _ _ => true
  | _ => false

def isUnion : Shape → Bool
  | .union _ _ => true
  | _ => false

-- An object type without properties; other signatures do not count.
def isEmptyObject : Shape → Bool
  | .object _ members _ => members.isEmpty
  | _ => false

-- The members of a union; any other type is its own only member.
def alternatives : Shape → List Shape
  | .union _ args => args
  | shape => [shape]

-- The property of an object type with a key.
def member? (shape : Shape) (key : Text) :
    Except StringLiteral.DecodeError (Option Member) :=
  Member.find? key shape.members

-- The type of the property of an object type with a key.
def property? (shape : Shape) (key : Text) :
    Except StringLiteral.DecodeError (Option Shape) :=
  return (← shape.member? key).map Member.shape

def isStringLiteral : Shape → Bool
  | .leaf label => label.text.any StringLiteral.isQuoted
  | _ => false

-- The value of the text of a leaf: a string, a truth value, a number, or else the text itself.
def literalOfText (text : Text) : Except StringLiteral.DecodeError Json :=
  if StringLiteral.isQuoted text then return .str (← StringLiteral.decode text)
  else if text = "true" then .ok (.bool true)
  else if text = "false" then .ok (.bool false)
  else if text = "null" then .ok .null
  else .ok (NumberLiteral.value text)

mutual

-- The value of a literal type or a tuple of them. Other types have the null value.
def literalValue : Shape → Except StringLiteral.DecodeError Json
  | .leaf label =>
    match label.text with
    | some text => literalOfText text
    | none => .ok .null
  | .tuple _ args => return .arr (← literalValues args)
  | _ => .ok .null

def literalValues : List Shape → Except StringLiteral.DecodeError (List Json)
  | [] => .ok []
  | arg :: rest => do
    let value ← arg.literalValue
    return value :: (← literalValues rest)

end

-- The name that a shape itself refers to; an empty one does not count.
def ownReference (shape : Shape) : List Text :=
  shape.label.reference.toList.filter (!·.isEmpty)

mutual

-- The names referred to anywhere in a tree.
def references : Shape → List Text
  | .leaf label => ownReference (.leaf label)
  | .object label members signatures =>
    ownReference (.object label members signatures) ++ memberReferences members
  | .union label args => ownReference (.union label args) ++ argReferences args
  | .array label args => ownReference (.array label args) ++ argReferences args
  | .tuple label args => ownReference (.tuple label args) ++ argReferences args
  | .lookup label path => ownReference (.lookup label path)
  | .generic label args => ownReference (.generic label args) ++ argReferences args

def argReferences : List Shape → List Text
  | [] => []
  | arg :: rest => arg.references ++ argReferences rest

def memberReferences : List Member → List Text
  | [] => []
  | .mk _ shape _ _ :: rest => shape.references ++ memberReferences rest

end

mutual

-- The paths of the indexed accesses anywhere in a tree.
def lookups : Shape → List (List Text)
  | .leaf _ => []
  | .object _ members _ => memberLookups members
  | .union _ args => argLookups args
  | .array _ args => argLookups args
  | .tuple _ args => argLookups args
  | .lookup _ path => [path]
  | .generic _ args => argLookups args

def argLookups : List Shape → List (List Text)
  | [] => []
  | arg :: rest => arg.lookups ++ argLookups rest

def memberLookups : List Member → List (List Text)
  | [] => []
  | .mk _ shape _ _ :: rest => shape.lookups ++ memberLookups rest

end

end Shape

end HookGen
