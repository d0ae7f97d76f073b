import HookGen.Code.Statement
import HookGen.Json.Printer
import HookGen.Render.Basic

/-!
The modules that declare types: those of tables and functions, the enums, and the base types that the
others refer to.
-/

namespace HookGen

-- Where a module imports shared types from.
structure SharedImports where
  baseTypes : Text
  enums : Text
  deriving DecidableEq, Repr

namespace Render

-- The imports of the names that some notes mention.
def imports (shared : SharedImports) (notes : List Note) : Text :=
  let statements := [
    Code.importNames true (notes.filterMap Note.baseType?) shared.baseTypes,
    Code.importNames true (notes.filterMap Note.enumeration?) shared.enums]
  Text.joinLines (statements.filter (!·.isEmpty))

-- Render something and hand on what was noted besides the result.
def withNotes {α : Type} (x : Rendering α) : Rendering (α × List Note) :=
  x.andThen fun a => ⟨[], .ok (a, x.notes)⟩

end Render

namespace Types

open Render

def declare (name text : Text) : Text := "export type " ++ name ++ " = " ++ text ++ ";"

-- The type of the filters of a table: its columns, and the limits of a query.
def filterParams (table : Table) : Text :=
  let name := table.typeName
  let row := name ++ "Row"
  Text.joinLines [
    Code.docComment [
      "Filter parameters for " ++ table.name ++ " queries",
      "Makes all properties from " ++ row ++ " optional and adds array operators"],
    "export type " ++ name ++ "FilterParams = \x7b",
    "  [K in keyof " ++ row ++ "]?: " ++ row ++ "[K] | " ++ row ++ "[K][] | null;",
    "\x7d & \x7b",
    "  limit?: number;",
    "  offset?: number;",
    "  order?: \x7b",
    "    column: keyof " ++ row ++ ";",
    "    direction?: 'asc' | 'desc';",
    "  \x7d;",
    "\x7d;"]

-- The three row types of a table in one go, so that the module imports what any of them uses.
def tableDeclarations (schema : Schema) (table : Table) : Rendering (List Text) := do
  let name := table.typeName
  let row ← render schema 0 table.row
  let insert ← render schema 0 table.insert
  let update ← render schema 0 table.update
  return [
    declare (name ++ "Row") row,
    declare (name ++ "Insert") insert,
    declare (name ++ "Update") update,
    filterParams table]

-- The types of a table.
def tableModule (schema : Schema) (shared : SharedImports) (table : Table) : Rendering Text := do
  let (declarations, notes) ← withNotes (tableDeclarations schema table)
  return Code.assemble ("Auto-generated type definitions for table: " ++ table.name)
    (imports shared notes) declarations

-- What overloads take or give together.
def merge : List Shape → Shape
  | [only] => only
  | shapes => .unionOf shapes

def routineDeclarations (schema : Schema) (routine : Routine) : Rendering (List Text) := do
  let name := routine.typeName
  let args ← render schema 0 (merge (routine.signatures.map (·.args)))
  let returns ← render schema 0 (merge (routine.signatures.map (·.returns)))
  return [declare (name ++ "Args") args, declare (name ++ "Returns") returns]

-- The types of a database function.
def routineModule (schema : Schema) (shared : SharedImports) (routine : Routine) :
    Rendering Text := do
  let (declarations, notes) ← withNotes (routineDeclarations schema routine)
  return Code.assemble ("Auto-generated type definitions for RPC function: " ++ routine.name)
    (imports shared notes) declarations

-- Whether a type of arguments says that there are none.
def takesNothing (args : Shape) : Bool :=
  match args with
  | .object _ members _ => members.isEmpty
  | .leaf label => label.text == some ("never" : Text)
  | .generic label [_, second] =>
    label.text == some ("Record" : Text) && second.label.text == some ("never" : Text)
  | _ => false

-- Whether no overload of a function takes arguments.
def hasNoArgs (routine : Routine) : Bool := routine.signatures.all fun s => takesNothing s.args

-- The declaration of an enum: the union of its values.
def enumDeclaration (enumeration : Enumeration) : Text :=
  let values := enumeration.values.map (Json.quote false)
  declare enumeration.typeName (if values.isEmpty then "never" else Text.join " | " values)

-- The types of all enums of a schema.
def enumsModule (enums : List Enumeration) (schemaName : Text) : Text :=
  let head : Text := "/** Auto-generated Enums from \x60" ++ schemaName ++ "\x60 schema. */"
  Code.joinSections (head :: enums.map enumDeclaration)

-- Add to the required names those that their sources mention, starting with the pending ones. Each
-- name is pending once, so the number of names bounds the steps.
def requireMentioned (schema : Schema) : Nat → List Text → List Text → List Text
  | 0, required, _ => required
  | _ + 1, required, [] => required
  | budget + 1, required, name :: pending =>
    let source := schema.baseTypeSource name
    let mentioned := (schema.baseTypes.map (·.1)).filter fun other =>
      !required.contains other && Text.includesWord other source
    requireMentioned schema budget (required ++ mentioned) (pending ++ mentioned)

-- The base types that the used ones need, themselves included, in the order of their declaration.
def requiredBaseTypes (schema : Schema) (used : List Text) : List Text :=
  let start := used.eraseDups
  let required :=
    requireMentioned schema (start.length + schema.baseTypes.length + 1) start start
  (schema.baseTypes.map (·.1)).filter required.contains

-- The declarations of the base types in use.
def baseTypesModule (schema : Schema) (used : List Text) : Text :=
  Code.assemble "Auto-generated base types extracted from database schema" []
    ((requiredBaseTypes schema used).map schema.baseTypeSource)

end Types

end HookGen
