import HookGen.Shape.OfSource
import HookGen.Schema.Basic
import HookGen.Traced

/-!
Finding the tables, functions, enums and base types of one schema in a declaration file.
-/

namespace HookGen

-- A parsed declaration file.
structure DeclarationFile where
  path : Text
  declarations : List Source.Declaration

inductive IntrospectionError
  -- a property name or a literal has an escape without a value
  | literal (error : StringLiteral.DecodeError)
  | missingType (name path : Text)
  | missingSchema (name rootName : Text)
  deriving DecidableEq, Repr

def IntrospectionError.message : IntrospectionError → Text
  | .literal error => error.message
  | .missingType name path => "No \"" ++ name ++ "\" type declared in " ++ path
  | .missingSchema name rootName => "No \"" ++ name ++ "\" property found in " ++ rootName

abbrev Introspected (α : Type) := Logged IntrospectionError α

namespace DeclarationFile

-- Parse a source. A malformed one declares nothing.
def parse (path source : Text) : Logged Empty DeclarationFile := do
  let parsed := Source.parseDeclarations source
  if parsed.isNone then
    logWarning ("Syntax errors while parsing " ++ path ++ "; output may be incomplete")
  let declarations := parsed.getD []
  logDebug ("Parsed " ++ path ++ ": " ++ Text.ofNat declarations.length ++ " top-level types")
  return ⟨path, declarations⟩

def type? (file : DeclarationFile) (name : Text) : Option Shape :=
  (file.declarations.find? (·.name == name)).map fun declaration =>
    Shape.ofType declaration.value

def requireType (file : DeclarationFile) (name : Text) : Except IntrospectionError Shape :=
  match file.type? name with
  | some shape => .ok shape
  | none => .error (.missingType name file.path)

end DeclarationFile

namespace Introspection

-- Pass on the failure of decoding a name or a literal.
def decoded {α : Type} (result : Except StringLiteral.DecodeError α) : Introspected α :=
  Traced.ofExcept (result.mapError .literal)

-- The type of a property, or an empty object where it is not declared.
def propertyOrEmpty (shape : Shape) (key : Text) : Introspected Shape := do
  return (← decoded (shape.property? key)).getD .emptyObject

-- The fields of an object type with the values of their literal types. Of several properties with
-- one key the last one counts.
def literalFields : List Member → List (Text × Json) →
    Except StringLiteral.DecodeError (List (Text × Json))
  | [], fields => .ok fields
  | member :: rest, fields => do
    let key ← member.key
    let value ← member.shape.literalValue
    literalFields rest (Json.setField key value fields)

-- How many problems a relationship has, as the log counts them.
def problemCount (errors : List Relationship.FieldError) : Text :=
  Text.ofNat errors.length ++
    (if errors.length = 1 then " validation error" else " validation errors") ++ " for Relationship"

-- The relationship that an entry of a tuple describes, if it does.
def relationshipOf (table : Text) (entry : Shape) : Introspected (Option Relationship) := do
  if !entry.isObject then
    logWarning ("Skipping non-object relationship entry in table " ++ table)
    return none
  let fields ← decoded (literalFields entry.members [])
  match Relationship.ofJson (.obj fields) with
  | .ok relationship => return some relationship
  | .error errors =>
    logWarning ("Error parsing relationship for table " ++ table ++ ": " ++ problemCount errors)
    return none

def relationshipsOf (table : Text) : List Shape → Introspected (List Relationship)
  | [] => return []
  | entry :: rest => do
    let relationship ← relationshipOf table entry
    let others ← relationshipsOf table rest
    return relationship.toList ++ others

-- The relationships of a table. Malformed entries are logged and left out.
def tableRelationships (table : Text) (shape : Shape) :
    Introspected (List Relationship) := do
  match ← decoded (shape.property? "Relationships") with
  | none => return []
  | some (.tuple _ entries) => relationshipsOf table entries
  | some _ =>
    logWarning ("Relationships of table " ++ table ++ " is not a tuple type, ignoring")
    return []

def tableOf (member : Member) : Introspected Table := do
  let name ← decoded member.key
  let shape := member.shape
  let row ← propertyOrEmpty shape "Row"
  let insert ← propertyOrEmpty shape "Insert"
  let update ← propertyOrEmpty shape "Update"
  let relationships ← tableRelationships name shape
  logDebug ("Introspected table: " ++ name)
  return ⟨name, row, insert, update, relationships⟩

-- The signature that a type describes: an object with `Args` or `Returns`.
def signatureOf (candidate : Shape) : Introspected (Option Signature) := do
  if !candidate.isObject then return none
  let args ← decoded (candidate.property? "Args")
  let returns ← decoded (candidate.property? "Returns")
  if args.isNone && returns.isNone then return none
  return some ⟨args.getD .emptyObject, returns.getD (.text "void")⟩

def signaturesOf : List Shape → Introspected (List Signature)
  | [] => return []
  | candidate :: rest => do
    let signature ← signatureOf candidate
    let others ← signaturesOf rest
    return signature.toList ++ others

-- The function that a property describes: one signature, or a union of them.
def routineOf (member : Member) : Introspected (Option Routine) := do
  let name ← decoded member.key
  let signatures ← signaturesOf member.shape.alternatives
  if signatures.isEmpty then
    logWarning ("Function " ++ name ++ " has no Args/Returns signature, ignoring")
    return none
  return some ⟨name, signatures⟩

-- The values of the string literals among some types, each once.
def enumValues : List Shape → List Text → Introspected (List Text)
  | [], values => return values
  | candidate :: rest, values => do
    if candidate.isStringLiteral then
      match ← decoded candidate.literalValue with
      | .str value => enumValues rest (if values.contains value then values else values ++ [value])
      | _ => enumValues rest values
    else enumValues rest values

def enumOf (member : Member) : Introspected Enumeration := do
  let values ← enumValues member.shape.alternatives []
  let name ← decoded member.key
  if values.isEmpty then
    logWarning ("Enum " ++ name ++ " has no string literal values")
  return ⟨name, values⟩

-- What one property after the other describes.
def collect {α : Type} (describe : Member → Introspected α) : List Member → Introspected (List α)
  | [] => return []
  | member :: rest => do
    let first ← describe member
    let others ← collect describe rest
    return first :: others

-- The declarations that generated types may refer to, each exported. Neither the root type nor
-- declarations with type parameters are among them.
def baseTypes (file : DeclarationFile) (rootName : Text) : List (Text × Text) :=
  (file.declarations.filter fun declaration =>
    declaration.name != rootName && !declaration.hasTypeParameters).map fun declaration =>
      (declaration.name,
        if declaration.isExported then declaration.source else "export " ++ declaration.source)

-- The properties of an optional object type.
def membersOf (shape : Option Shape) : List Member :=
  (shape.map Shape.members).getD []

-- Find what one schema below the root type declares.
def introspect (file : DeclarationFile) (schemaName rootName : Text) : Introspected Schema := do
  let root ← Traced.ofExcept (file.requireType rootName)
  match ← decoded (root.property? schemaName) with
  | some (.object label members signatures) =>
    let shape := Shape.object label members signatures
    let tablesType ← decoded (shape.property? "Tables")
    let routinesType ← decoded (shape.property? "Functions")
    let enumsType ← decoded (shape.property? "Enums")
    let tables ← collect tableOf (membersOf tablesType)
    let routines ← collect routineOf (membersOf routinesType)
    let enums ← collect enumOf (membersOf enumsType)
    let schema : Schema := {
      root
      rootName
      name := schemaName
      tables
      routines := routines.filterMap id
      enums
      baseTypes := baseTypes file rootName
      hasTables := tablesType.isSome
      hasRoutines := routinesType.isSome
      hasEnums := enumsType.isSome
      sourceFile := some file.path }
    logInfo ("Introspected schema '" ++ schemaName ++ "': " ++ Text.ofNat schema.tables.length ++
      " tables, " ++ Text.ofNat schema.routines.length ++ " functions, " ++
      Text.ofNat schema.enums.length ++ " enums")
    return schema
  | _ => Traced.fail (.missingSchema schemaName rootName)

end Introspection

end HookGen
