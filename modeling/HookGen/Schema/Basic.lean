import HookGen.Shape.Basic
import HookGen.Naming
import HookGen.Schema.Relationship

/-!
One schema of a database as its declarations describe it.
-/

namespace HookGen

structure Table where
  name : Text
  row : Shape
  insert : Shape
  update : Shape
  relationships : List Relationship

-- One way to call a database function.
structure Signature where
  args : Shape
  returns : Shape

-- A database function. An overloaded one has several signatures.
structure Routine where
  name : Text
  signatures : List Signature

structure Enumeration where
  name : Text
  values : List Text

structure Schema where
  -- the whole root type, to which indexed accesses refer
  root : Shape
  rootName : Text
  name : Text
  tables : List Table
  routines : List Routine
  enums : List Enumeration
  -- the names and sources of the declarations that generated types may refer to
  baseTypes : List (Text × Text)
  hasTables : Bool
  hasRoutines : Bool
  hasEnums : Bool
  sourceFile : Option Text

namespace Table

def typeName (table : Table) : Text := Naming.typeName table.name

-- Whether rows can be found by a column `id`.
def hasIdColumn (table : Table) : Except StringLiteral.DecodeError Bool :=
  return (← table.row.member? "id").isSome

def hasRelationships (table : Table) : Bool := !table.relationships.isEmpty

def referencedTables (table : Table) : List Text := table.relationships.map (·.referencedRelation)

end Table

namespace Routine

def typeName (routine : Routine) : Text := Naming.typeName routine.name

def isPrivate (routine : Routine) : Bool := routine.name.head? == some (.char '_')

def isOverloaded (routine : Routine) : Bool := routine.signatures.length > 1

end Routine

def Enumeration.typeName (enumeration : Enumeration) : Text := Naming.typeName enumeration.name

namespace Schema

-- The functions that modules are generated for.
def publicRoutines (schema : Schema) : List Routine := schema.routines.filter (!·.isPrivate)

def table? (schema : Schema) (name : Text) : Option Table := schema.tables.find? (·.name == name)

def enum? (schema : Schema) (name : Text) : Option Enumeration := schema.enums.find? (·.name == name)

-- The enum of this schema that an indexed access points at.
def enumOfPath? (schema : Schema) : List Text → Option Enumeration
  | [root, name, group, enumName] =>
    if root = schema.rootName ∧ name = schema.name ∧ group = "Enums" then schema.enum? enumName
    else none
  | _ => none

-- Follow the keys of a path down from a shape.
def descend : Shape → List Text → Except StringLiteral.DecodeError (Option Shape)
  | shape, [] => .ok (some shape)
  | shape, key :: rest => do
    match ← shape.property? key with
    | some next => descend next rest
    | none => return none

-- The shape that an indexed access points at.
def resolve (schema : Schema) : List Text → Except StringLiteral.DecodeError (Option Shape)
  | [] => .ok none
  | root :: keys => if root = schema.rootName then descend schema.root keys else .ok none

def isBaseType (schema : Schema) (name : Text) : Bool := schema.baseTypes.any (·.1 == name)

-- The source of a base type, which is empty for an unknown one.
def baseTypeSource (schema : Schema) (name : Text) : Text := (schema.baseTypes.lookup name).getD []

end Schema

end HookGen
