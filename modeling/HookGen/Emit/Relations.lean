import HookGen.Code.Statement
import HookGen.Json.Printer
import HookGen.Schema.Basic
import HookGen.Traced

/-!
The relations of a table: a type for each, the interface of all of them, and what selects the related
rows. Two foreign keys can have one short name; then the first counts.
-/

namespace HookGen.Relations

open Code

-- The relationships whose names are not among `seen` nor those of earlier ones.
def distinctFrom (table : Text) (seen : List Text) :
    List Relationship → Logged Empty (List Relationship)
  | [] => return []
  | relationship :: rest => do
    let name := relationship.relationName table
    if seen.contains name then
      logWarning ("Duplicate relation name '" ++ name ++ "' in table " ++ table ++ " (" ++
        relationship.foreignKeyName ++ "), skipping")
      distinctFrom table seen rest
    else
      return relationship :: (← distinctFrom table (name :: seen) rest)

-- The relationships of a table with distinct names.
def distinct (table : Table) : Logged Empty (List Relationship) :=
  distinctFrom table.name [] table.relationships

def rowType (table : Text) : Text := Naming.typeName table ++ "Row"

-- One import for each referenced table; the own types come last.
def imports (table : Text) (relationships : List Relationship) : List Text :=
  let referenced := Text.sortDistinct (relationships.map (·.referencedRelation))
  let others := (referenced.filter (· != table)).map fun other =>
    importNames true [rowType other] ("../" ++ other ++ "/types")
  if referenced.contains table then others ++ [importNames true [rowType table] "./types"]
  else others

-- A relation to one row can be null, one to several rows is an array.
def relationType (table : Text) (relationship : Relationship) : Text :=
  let related := rowType relationship.referencedRelation
  let target := related ++ (if relationship.isOneToOne then " | null" else "[]")
  "export type " ++ relationship.relationName table ++ " = " ++ target ++ ";"

def interfaceMember (table : Text) (relationship : Relationship) : Text :=
  let name := relationship.relationName table
  "  " ++ name ++ "?: " ++ name ++ ";"

def selectEntry (table : Text) (relationship : Relationship) : Text :=
  let name := relationship.relationName table
  "  " ++ name ++ ": '" ++ name ++ ":" ++ relationship.embedSelect ++ "',"

-- The module of distinct relationships.
def moduleOf (table : Text) (relationships : List Relationship) : Text :=
  let importLines := imports table relationships
  let interfaceHead : List Text := [
    docComment ["All available relationships for this table"],
    "export interface Relationships \x7b"]
  let selectHead : List Text := [
    docComment ["PostgREST embed strings, aliased to the relation name"],
    "export const relationSelects: Record<keyof Relationships, string> = \x7b"]
  joinSections (
    docComment ["Auto-generated relationship types for table: " ++ table] ::
    (if importLines.isEmpty then [] else [Text.joinLines importLines]) ++
    [Text.joinLines (relationships.map (relationType table)),
      Text.joinLines (interfaceHead ++ relationships.map (interfaceMember table) ++
        [Text.ofString "\x7d"]),
      Text.joinLines (selectHead ++ relationships.map (selectEntry table) ++
        [Text.ofString "\x7d;"])])

def module (table : Table) : Logged Empty Text := do
  return moduleOf table.name (← distinct table)

-- All relationships of a table as JSON, duplicate names included.
def jsonModule (table : Table) : Text :=
  Json.print ⟨some 2, true⟩ (.arr (table.relationships.map Relationship.toJson)) ++ "\n"

end HookGen.Relations
